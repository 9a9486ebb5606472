import EtasFrontend.Alias.HybridCorrect
import EtasFrontend.Alias.Summary

/-! Which writes of a summary reach the heap of the caller. -/
namespace EtasFrontend.Alias
open Lib
open Hir (HirExprId)
open Analysis (HirExpr)

variable {config : AliasPrecisionConfig} {le : AliasVar → AliasVar → Bool}

/-! One weak update. -/

variable {seeds : List (AliasVar × AliasValue)}

theorem Classes.run_copy {constraints : List AliasConstraint}
    {dst src : AliasVar} (h : .copy dst src ∈ constraints) :
    (run config le seeds constraints).may src = (run config le seeds constraints).may dst := by
  have hlink : Linked constraints dst src := .rel _ _ ⟨.copy dst src, h, rfl⟩
  exact (run_uniform _ _ (root_eq_of_linked hlink)).symm

theorem AliasConstraintFrame.solve_copy {dst src : AliasVar} {solution : AliasSolution}
    (h : AliasConstraintFrame.solve config le seeds [.copy dst src] = some solution)
    (hcomplete : solution.incomplete = false) :
    ∀ entry ∈ seeds, entry.1 = dst ∨ entry.1 = src → entry.2.may ≤ solution.may dst := by
  intro entry hentry hvar
  have hcopy : AliasConstraint.copy dst src ∈ [AliasConstraint.copy dst src] := List.mem_cons_self
  -- each solver is above the seeds and takes them along the copy
  have hinclusion {constraints : List AliasConstraint} (hmem : .copy dst src ∈ constraints)
      (hcomplete : (Inclusion.solve config seeds constraints).incomplete = false) :
      entry.2.may ≤ (Inclusion.solve config seeds constraints).may dst := by
    have hseed : entry.2.may ≤ (Inclusion.solve config seeds constraints).may entry.1 :=
      Inclusion.solve_seeded seeds entry hentry
    obtain rfl | rfl := hvar
    · exact hseed
    · exact hseed.trans (Inclusion.solve_satisfies hcomplete _ hmem)
  have hclasses {constraints : List AliasConstraint} (hmem : .copy dst src ∈ constraints) :
      entry.2.may ≤ (Classes.run config le seeds constraints).may dst := by
    have hseed : entry.2.may ≤ (Classes.run config le seeds constraints).may entry.1 :=
      Classes.run_seeded entry hentry
    obtain rfl | rfl := hvar
    · exact hseed
    · rwa [Classes.run_copy hmem] at hseed
  unfold AliasConstraintFrame.solve at h
  split at h
  · obtain rfl := Option.some.inj h
    exact hinclusion hcopy hcomplete
  · obtain ⟨answer, hanswer, hmay, -⟩ := Unification.solve_eq config le seeds [.copy dst src]
    obtain rfl := Option.some.inj (hanswer.symm.trans h)
    rw [hmay]
    exact hclasses hcopy
  · obtain ⟨uses, region, answer, -, hanswer, hmay, hincomplete⟩ :=
      Hybrid.solve_eq config le seeds [.copy dst src]
    obtain rfl := Option.some.inj (hanswer.symm.trans h)
    rw [hincomplete, Bool.or_eq_false_iff] at hcomplete
    rw [hmay]
    cases huses : uses (.copy dst src) with
    | true =>
      have hmem := List.mem_filter.mpr ⟨hcopy, huses⟩
      exact (hinclusion hmem hcomplete.1).trans (AliasSet.le_join_left ..)
    | false =>
      have hmem : AliasConstraint.copy dst src ∈ [AliasConstraint.copy dst src].filter (!uses ·) :=
        List.mem_filter.mpr ⟨hcopy, by rw [huses]; rfl⟩
      exact (hclasses hmem).trans (AliasSet.le_join_right ..)

variable (config le) in
theorem AliasConstraintFrame.solve_isSome (seeds : List (AliasVar × AliasValue))
    (constraints : List AliasConstraint) :
    ∃ solution, AliasConstraintFrame.solve config le seeds constraints = some solution := by
  unfold AliasConstraintFrame.solve
  split
  · exact ⟨_, rfl⟩
  · obtain ⟨answer, hanswer, -⟩ := Unification.solve_eq config le seeds constraints
    exact ⟨answer, hanswer⟩
  · obtain ⟨-, -, answer, -, hanswer, -⟩ := Hybrid.solve_eq config le seeds constraints
    exact ⟨answer, hanswer⟩

/-- What an entry of the heap may denote; without an entry, nothing. -/
def entryMay (entry : Option AliasValue) : AliasSet := (entry.getD .bottom).may

theorem weakUpdate_eq (config : AliasPrecisionConfig) (le : AliasVar → AliasVar → Bool)
    (place : Place) (entry : Option AliasValue) (value : AliasValue) :
    ∃ solved incomplete,
      solveCopyUpdate config le (.place place) entry value false = some (solved, incomplete) ∧
        (incomplete = false → entryMay entry ≤ solved.may ∧ value.may ≤ solved.may) := by
  obtain ⟨solution, hsolve⟩ := AliasConstraintFrame.solve_isSome config le
    (entry.toList.map (AliasVar.place place, ·) ++ [(.synthetic 0, value)])
    [.copy (.place place) (.synthetic 0)]
  refine ⟨solution.value (.place place), solution.incomplete, ?_, fun hcomplete => ?_⟩
  · have hupdate : solveCopyUpdate config le (.place place) entry value false =
        (AliasConstraintFrame.solve config le
          (entry.toList.map (AliasVar.place place, ·) ++ [(.synthetic 0, value)])
          [.copy (.place place) (.synthetic 0)]).bind
          fun solution => some (solution.value (.place place), solution.incomplete) := rfl
    rw [hupdate, hsolve]
    rfl
  · have hseeds := AliasConstraintFrame.solve_copy hsolve hcomplete
    constructor
    · cases entry with
      | none => exact AliasSet.bottom_le _
      | some old => exact hseeds (.place place, old) List.mem_cons_self (Or.inl rfl)
    · exact hseeds (.synthetic 0, value) (List.mem_append_right _ List.mem_cons_self) (Or.inr rfl)

/-! The weak updates of one place. -/

/-- What some values make of the entry of a place, and whether an update gives up. -/
def gather (config : AliasPrecisionConfig) (le : AliasVar → AliasVar → Bool) (place : Place) :
    Option AliasValue → List AliasValue → Option (Option AliasValue × Bool)
  | entry, [] => some (entry, false)
  | entry, value :: values => do
    let (solved, incomplete) ← solveCopyUpdate config le (.place place) entry value false
    let (entry, gaveUp) ← gather config le place (some solved) values
    return (entry, incomplete || gaveUp)

theorem gather_cons {place : Place} {entry : Option AliasValue} {value solved : AliasValue}
    {incomplete : Bool} (values : List AliasValue)
    (h : solveCopyUpdate config le (.place place) entry value false = some (solved, incomplete)) :
    gather config le place entry (value :: values) =
      (gather config le place (some solved) values).map fun found =>
        (found.1, incomplete || found.2) := by
  rw [gather, h, Option.bind_eq_bind, Option.bind_some]
  dsimp only
  cases gather config le place (some solved) values <;> rfl

theorem gather_le {place : Place} {entry final : Option AliasValue} {values : List AliasValue}
    (h : gather config le place entry values = some (final, false)) :
    entryMay entry ≤ entryMay final ∧ ∀ value ∈ values, value.may ≤ entryMay final := by
  induction values generalizing entry with
  | nil =>
    obtain ⟨rfl, -⟩ := Prod.mk.inj (Option.some.inj h)
    exact ⟨le_refl _, List.forall_mem_nil _⟩
  | cons value values ih =>
    obtain ⟨solved, incomplete, hsolve, hle⟩ := weakUpdate_eq config le place entry value
    rw [gather_cons values hsolve, Option.map_eq_some_iff] at h
    obtain ⟨⟨found, gaveUp⟩, hfound, heq⟩ := h
    obtain ⟨rfl, hflags⟩ := Prod.mk.inj heq
    obtain ⟨hincomplete, rfl⟩ := Bool.or_eq_false_iff.mp hflags
    obtain ⟨hentry, hvalue⟩ := hle hincomplete
    obtain ⟨hrest, hvalues⟩ := ih hfound
    exact ⟨hentry.trans hrest, List.forall_mem_cons.mpr ⟨hvalue.trans hrest, hvalues⟩⟩

section Writes
variable (instantiate : AliasValueExpr → Option AliasValue)

/-- The values of the writes whose one target is the place. -/
def aimed (writes : List AliasWriteEffect) (place : Place) : List AliasValue :=
  writes.filterMap fun write => (instantiate write.target).bind fun target =>
    if target.must = some place then instantiate write.value else none

/-- The target of a write is not known at all. -/
def Unaimed (write : AliasWriteEffect) : Prop :=
  ∃ target, instantiate write.target = some target ∧ target.must = none ∧ target.may = .unknown

/-- What the loop over the writes does to the heap, place by place, and when it gives up. -/
structure Written (le : AliasVar → AliasVar → Bool) (writes : List AliasWriteEffect)
    (state after : AliasDomain) : Prop where
  heap : ∀ place, ∃ gaveUp, gather state.config le place (state.heap.get place)
    (aimed instantiate writes place) = some (after.heap.get place, gaveUp)
  incomplete : after.incomplete = true ↔ state.incomplete = true ∨
    (∃ write ∈ writes, Unaimed instantiate write) ∨
    ∃ place entry, gather state.config le place (state.heap.get place)
      (aimed instantiate writes place) = some (entry, true)

variable {instantiate} {write : AliasWriteEffect} {writes : List AliasWriteEffect}
  {state next after : AliasDomain}

theorem aimed_cons {target value : AliasValue} (htarget : instantiate write.target = some target)
    (hvalue : instantiate write.value = some value) (writes : List AliasWriteEffect)
    (place : Place) :
    aimed instantiate (write :: writes) place =
      if target.must = some place then value :: aimed instantiate writes place
      else aimed instantiate writes place := by
  unfold aimed
  rw [List.filterMap_cons, htarget, Option.bind_some]
  split_ifs
  · rw [hvalue]
  · rfl

theorem unaimed_iff {target : AliasValue} (htarget : instantiate write.target = some target) :
    Unaimed instantiate write ↔ target.must = none ∧ target.may = .unknown := by
  constructor
  · rintro ⟨other, hother, hmust, hmay⟩
    obtain rfl := Option.some.inj (htarget.symm.trans hother)
    exact ⟨hmust, hmay⟩
  · exact fun h => ⟨target, htarget, h⟩

/-- One write. -/
theorem applyWrite_cases (h : applyWrite le instantiate state write = some next) :
    ∃ target value, instantiate write.target = some target ∧
      instantiate write.value = some value ∧ next.config = state.config ∧
      ((∃ place solved incomplete, target.must = some place ∧
          solveCopyUpdate state.config le (.place place) (state.heap.get place) value false =
            some (solved, incomplete) ∧
          next.heap = state.heap.insert place solved ∧
          next.incomplete = (state.incomplete || incomplete)) ∨
        (target.must = none ∧ next.heap = state.heap ∧
          (next.incomplete = true ↔ state.incomplete = true ∨ target.may = .unknown))) := by
  obtain ⟨target, htarget, h⟩ := Option.bind_eq_some_iff.mp h
  obtain ⟨value, hvalue, h⟩ := Option.bind_eq_some_iff.mp h
  refine ⟨target, value, htarget, hvalue, ?_⟩
  cases hmust : target.must with
  | some place =>
    rw [hmust] at h
    obtain ⟨⟨solved, incomplete⟩, hsolve, h⟩ := Option.bind_eq_some_iff.mp h
    obtain rfl := Option.some.inj h
    refine ⟨?_, Or.inl ⟨place, solved, incomplete, rfl, hsolve, ?_, ?_⟩⟩
    · cases incomplete <;> rfl
    · cases incomplete <;> rfl
    · cases incomplete with
      | true => exact (Bool.or_true _).symm
      | false => exact (Bool.or_false _).symm
  | none =>
    rw [hmust] at h
    obtain rfl := Option.some.inj h
    have hunknown : target.isUnknown = true ↔ target.may = .unknown := by
      unfold AliasValue.isUnknown
      cases target.may <;> simp
    split
    case isTrue hmay =>
      exact ⟨rfl, Or.inr ⟨rfl, rfl, fun _ => Or.inr (hunknown.mp hmay), fun _ => rfl⟩⟩
    case isFalse hmay =>
      exact ⟨rfl, Or.inr ⟨rfl, rfl, Or.inl,
        fun h => h.resolve_right fun hu => hmay (hunknown.mpr hu)⟩⟩

theorem foldlM_applyWrite (h : writes.foldlM (applyWrite le instantiate) state = some after) :
    Written instantiate le writes state after := by
  induction writes generalizing state with
  | nil =>
    obtain rfl := Option.some.inj h
    refine ⟨fun place => ⟨false, rfl⟩, ⟨Or.inl, ?_⟩⟩
    rintro (h | ⟨write, hmem, -⟩ | ⟨place, entry, h⟩)
    · exact h
    · cases hmem
    · cases h
  | cons write writes ih =>
    rw [List.foldlM_cons] at h
    obtain ⟨next, hnext, h⟩ := Option.bind_eq_some_iff.mp h
    obtain ⟨hheap, hincomplete⟩ := ih h
    obtain ⟨target, value, htarget, hvalue, hconfig, hcases⟩ := applyWrite_cases hnext
    have hcons := aimed_cons htarget hvalue writes
    have hwrites : (∃ other ∈ write :: writes, Unaimed instantiate other) ↔
        Unaimed instantiate write ∨ ∃ other ∈ writes, Unaimed instantiate other := by simp
    rw [hconfig] at hheap hincomplete
    obtain ⟨place, solved, incomplete, hmust, hsolve, hinsert, hflag⟩ | ⟨hmust, hsame, hflag⟩ := hcases
    · -- the entry of the place is updated, the others stay
      have hself : gather state.config le place (state.heap.get place)
          (aimed instantiate (write :: writes) place) =
          (gather state.config le place (next.heap.get place) (aimed instantiate writes place)).map
            fun found => (found.1, incomplete || found.2) := by
        rw [hcons, if_pos hmust, gather_cons _ hsolve, hinsert, Map.get_insert_self]
      have hother {other : Place} (hne : other ≠ place) :
          gather state.config le other (state.heap.get other)
            (aimed instantiate (write :: writes) other) =
          gather state.config le other (next.heap.get other) (aimed instantiate writes other) := by
        have hmust' : target.must ≠ some other := by
          rw [hmust]
          exact fun heq => hne (Option.some.inj heq).symm
        rw [hcons, if_neg hmust', hinsert, Map.get_insert_ne _ hne]
      have hgaveUp : (∃ other entry, gather state.config le other (state.heap.get other)
            (aimed instantiate (write :: writes) other) = some (entry, true)) ↔
          incomplete = true ∨ ∃ other entry, gather state.config le other (next.heap.get other)
            (aimed instantiate writes other) = some (entry, true) := by
        constructor
        · rintro ⟨other, entry, hgather⟩
          by_cases heq : other = place
          · subst heq
            rw [hself, Option.map_eq_some_iff] at hgather
            obtain ⟨⟨found, gaveUp⟩, hfound, hpair⟩ := hgather
            obtain ⟨rfl, hflags⟩ := Prod.mk.inj hpair
            obtain hflag | rfl := (Bool.or_eq_true _ _).mp hflags
            · exact Or.inl hflag
            · exact Or.inr ⟨_, _, hfound⟩
          · rw [hother heq] at hgather
            exact Or.inr ⟨other, entry, hgather⟩
        · rintro (rfl | ⟨other, entry, hgather⟩)
          · obtain ⟨gaveUp, hgather⟩ := hheap place
            exact ⟨place, _, by rw [hself, hgather]; rfl⟩
          · by_cases heq : other = place
            · subst heq
              refine ⟨other, entry, ?_⟩
              rw [hself, hgather, Option.map_some, Bool.or_true]
            · exact ⟨other, entry, by rw [hother heq]; exact hgather⟩
      have haimed : ¬Unaimed instantiate write := by
        rw [unaimed_iff htarget, hmust]
        exact fun h => nomatch h.1
      refine ⟨fun other => ?_, ?_⟩
      · by_cases heq : other = place
        · subst heq
          obtain ⟨gaveUp, hgather⟩ := hheap other
          exact ⟨incomplete || gaveUp, by rw [hself, hgather]; rfl⟩
        · rw [hother heq]
          exact hheap other
      · rw [hincomplete, hgaveUp, hflag, Bool.or_eq_true, hwrites, or_iff_right haimed,
          or_assoc]
        exact or_congr_right or_left_comm
    · have hall (other : Place) : gather state.config le other (state.heap.get other)
          (aimed instantiate (write :: writes) other) =
          gather state.config le other (next.heap.get other) (aimed instantiate writes other) := by
        have hmust' : target.must ≠ some other := by rw [hmust]; exact nofun
        rw [hcons, if_neg hmust', hsame]
      have haimed : Unaimed instantiate write ↔ target.may = .unknown := by
        rw [unaimed_iff htarget, hmust]
        exact and_iff_right rfl
      refine ⟨fun other => ?_, ?_⟩
      · rw [hall other]
        exact hheap other
      · simp only [hall]
        rw [hincomplete, hflag, hwrites, haimed, or_assoc, or_assoc]

theorem foldlM_applyEscape {escaped : List AliasValueExpr}
    (h : escaped.foldlM (applyEscape instantiate) state = some after) :
    after.heap = state.heap ∧ after.config = state.config ∧
      (after.incomplete = true ↔ state.incomplete = true ∨
        ∃ expr ∈ escaped, ∃ value, instantiate expr = some value ∧ value.may = .unknown) := by
  induction escaped generalizing state with
  | nil =>
    obtain rfl := Option.some.inj h
    exact ⟨rfl, rfl, Or.inl, fun h => h.resolve_right fun ⟨_, hmem, _⟩ => List.not_mem_nil hmem⟩
  | cons expr escaped ih =>
    rw [List.foldlM_cons] at h
    obtain ⟨next, hnext, h⟩ := Option.bind_eq_some_iff.mp h
    obtain ⟨value, hvalue, hnext⟩ := Option.bind_eq_some_iff.mp hnext
    obtain rfl := Option.some.inj hnext
    obtain ⟨hheap, hconfig, hincomplete⟩ := ih h
    have hexpr : (∃ other, instantiate expr = some other ∧ other.may = .unknown) ↔
        value.may = .unknown := by
      constructor
      · rintro ⟨other, hother, hmay⟩
        rwa [Option.some.inj (hvalue.symm.trans hother)]
      · exact fun hmay => ⟨value, hvalue, hmay⟩
    have hmark : (state.markEscaped value).heap = state.heap ∧
        (state.markEscaped value).config = state.config ∧
        ((state.markEscaped value).incomplete = true ↔
          state.incomplete = true ∨ value.may = .unknown) := by
      unfold AliasDomain.markEscaped
      cases value.may <;> simp [AliasDomain.markIncomplete]
    refine ⟨hheap.trans hmark.1, hconfig.trans hmark.2.1, ?_⟩
    have hcons : (∃ other ∈ expr :: escaped, ∃ value, instantiate other = some value ∧
        value.may = .unknown) ↔ value.may = .unknown ∨
        ∃ other ∈ escaped, ∃ value, instantiate other = some value ∧ value.may = .unknown := by
      rw [← hexpr]
      simp
    rw [hincomplete, hmark.2.2, hcons, or_assoc]

/-- The heap has the value of a write, and what it had, at every place that the target may
denote. -/
def Reflected (instantiate : AliasValueExpr → Option AliasValue) (before after : AliasDomain)
    (write : AliasWriteEffect) : Prop :=
  ∀ target value, instantiate write.target = some target → instantiate write.value = some value →
    ∀ place, target.may.Has (.one place) →
      entryMay (before.heap.get place) ≤ entryMay (after.heap.get place) ∧
        value.may ≤ entryMay (after.heap.get place)

/-- Something about the call is not known, or a weak update stops at the limit of the solver. -/
def GivesUp (le : AliasVar → AliasVar → Bool) (instantiate : AliasValueExpr → Option AliasValue)
    (summary : AliasSummary) (state : AliasDomain) : Prop :=
  state.incomplete = true ∨ summary.incomplete = true ∨
    (∃ expr ∈ summary.escaped, ∃ value, instantiate expr = some value ∧ value.may = .unknown) ∨
    (∃ write ∈ summary.writes, Unaimed instantiate write) ∨
    ∃ place entry, gather state.config le place (state.heap.get place)
      (aimed instantiate summary.writes place) = some (entry, true)

/-- Each place that the target may denote is its one target, or the value is there by the old entry
and the writes that have this place as their one target. -/
def Reaches (le : AliasVar → AliasVar → Bool) (instantiate : AliasValueExpr → Option AliasValue)
    (summary : AliasSummary) (state : AliasDomain) (write : AliasWriteEffect) : Prop :=
  ∀ target value, instantiate write.target = some target → instantiate write.value = some value →
    ∀ place, target.may.Has (.one place) → target.must = some place ∨
      ∃ entry gaveUp, gather state.config le place (state.heap.get place)
        (aimed instantiate summary.writes place) = some (entry, gaveUp) ∧
          value.may ≤ entryMay entry

end Writes

section Call
variable {exprs : HirExprId → Option HirExpr} {tables : CaptureTables} {depth : ℕ}
  {call : HirExprId} {callee : Option ContextualAliasUnit} {summary : AliasSummary}
  {state after : AliasDomain}

theorem applySummaryToCall_heap
    (h : applySummaryToCall le exprs tables depth call callee summary state = some after) :
    (∀ place, ∃ gaveUp, gather state.config le place (state.heap.get place)
      (aimed (instantiateAtCall le exprs tables depth call callee summary state) summary.writes
        place) = some (after.heap.get place, gaveUp)) ∧
      (after.incomplete = true ↔
        GivesUp le (instantiateAtCall le exprs tables depth call callee summary state) summary
          state) := by
  obtain ⟨value, hvalue, h⟩ := Option.bind_eq_some_iff.mp h
  obtain ⟨escaped, hescaped, h⟩ := Option.bind_eq_some_iff.mp h
  obtain ⟨written, hwritten, h⟩ := Option.bind_eq_some_iff.mp h
  obtain rfl := Option.some.inj h
  obtain ⟨hheap, hconfig, hincomplete⟩ := foldlM_applyEscape hescaped
  obtain ⟨hwrites, hgaveUp⟩ := foldlM_applyWrite hwritten
  rw [hheap, hconfig] at hwrites hgaveUp
  refine ⟨fun place => ?_, ?_⟩
  · split
    · exact hwrites place
    · exact hwrites place
  · have hlast : (if summary.incomplete = true then written.markIncomplete else written).incomplete =
        true ↔ written.incomplete = true ∨ summary.incomplete = true := by
      cases summary.incomplete <;> simp [AliasDomain.markIncomplete]
    have hstart : (state.setExprAlias call value).incomplete = state.incomplete := rfl
    refine hlast.trans ?_
    rw [hgaveUp, hincomplete, hstart, GivesUp, or_comm, or_assoc]
    exact or_left_comm

/-- A write is reflected, unless the state is incomplete, exactly if it reaches its places. -/
theorem applySummaryToCall_reflects_iff
    (h : applySummaryToCall le exprs tables depth call callee summary state = some after) :
    (after.incomplete = true ∨ ∀ write ∈ summary.writes,
      Reflected (instantiateAtCall le exprs tables depth call callee summary state) state after
        write) ↔
    (GivesUp le (instantiateAtCall le exprs tables depth call callee summary state) summary state ∨
      ∀ write ∈ summary.writes,
        Reaches le (instantiateAtCall le exprs tables depth call callee summary state) summary state
          write) := by
  obtain ⟨hheap, hincomplete⟩ := applySummaryToCall_heap h
  constructor
  · rintro (hdone | hreflected)
    · exact Or.inl (hincomplete.mp hdone)
    · refine Or.inr fun write hmem target value htarget hvalue place hplace => Or.inr ?_
      obtain ⟨gaveUp, hgather⟩ := hheap place
      exact ⟨_, gaveUp, hgather, (hreflected write hmem target value htarget hvalue place hplace).2⟩
  · rintro (hgivesUp | hreaches)
    · exact Or.inl (hincomplete.mpr hgivesUp)
    · by_cases hgivesUp : GivesUp le
        (instantiateAtCall le exprs tables depth call callee summary state) summary state
      · exact Or.inl (hincomplete.mpr hgivesUp)
      refine Or.inr fun write hmem target value htarget hvalue place hplace => ?_
      obtain ⟨gaveUp, hgather⟩ := hheap place
      obtain rfl : gaveUp = false := by
        rw [← Bool.not_eq_true]
        rintro rfl
        exact hgivesUp (Or.inr (Or.inr (Or.inr (Or.inr ⟨place, _, hgather⟩))))
      obtain ⟨hold, hvalues⟩ := gather_le hgather
      refine ⟨hold, ?_⟩
      obtain hmust | ⟨entry, flag, hentry, hle⟩ :=
        hreaches write hmem target value htarget hvalue place hplace
      · refine hvalues value (List.mem_filterMap.mpr ⟨write, hmem, ?_⟩)
        rw [htarget, Option.bind_some, if_pos hmust, hvalue]
      · obtain ⟨rfl, -⟩ := Prod.mk.inj (Option.some.inj (hgather.symm.trans hentry))
        exact hle

end Call

/-- The state before the call `f(1, 2)`. -/
def beforeCall (receiver : AliasValue) : AliasDomain where
  unit := none
  symbols := ∅
  exprs := (Map.insert ∅ 1 receiver).insert 2 (.fromTarget (.symbol 7))
  heap := ∅
  escaped := ∅
  returnAlias := .bottom
  lastExprAlias := .bottom
  incomplete := false
  config := .precise

def callOfTwo (expr : HirExprId) : Option HirExpr :=
  if expr = 0 then some (.call 3 [.positional 1, .positional 2]) else none

/-- The callee assigns its second parameter to a field of the first one. -/
def assignsField : AliasSummary where
  returnAlias := .bottom
  escaped := []
  writes := [⟨.project (.formalParam 0) (.field "f"), .formalParam 1⟩]
  captures := ∅
  incomplete := false

/-- The callee assigns each parameter to a field of the other one, and the first one to itself. -/
def crossesFields : AliasSummary :=
  { assignsField with
    writes := [⟨.project (.formalParam 0) (.field "f"), .formalParam 1⟩,
      ⟨.project (.formalParam 1) (.field "g"), .formalParam 0⟩,
      ⟨.project (.formalParam 0) (.field "f"), .formalParam 0⟩] }

theorem applySummaryToCall_reflects_iff_three :
    ∃ after, applySummaryToCall (fun _ _ => true) callOfTwo ⟨∅, ∅⟩ 2 0 none crossesFields
        (beforeCall (.fromTarget (.symbol 5))) = some after ∧
      ∀ write ∈ crossesFields.writes,
        Reflected (instantiateAtCall (fun _ _ => true) callOfTwo ⟨∅, ∅⟩ 2 0 none crossesFields
          (beforeCall (.fromTarget (.symbol 5)))) (beforeCall (.fromTarget (.symbol 5))) after
            write := by
  refine ⟨_, rfl, ((applySummaryToCall_reflects_iff rfl).mpr (Or.inr ?_)).resolve_left (by decide)⟩
  refine List.forall_mem_cons.mpr ⟨?_, List.forall_mem_cons.mpr ⟨?_,
    List.forall_mem_singleton.mpr ?_⟩⟩ <;>
  · intro target value htarget _ place hplace
    cases htarget
    exact Or.inl (congrArg some (Finset.mem_singleton.mp hplace).symm)

/-- The first argument denotes one of two places: the write is lost. -/
theorem applySummaryToCall_loses_write :
    ¬∀ after, applySummaryToCall (fun _ _ => true) callOfTwo ⟨∅, ∅⟩ 2 0 none assignsField
        (beforeCall ⟨.known {.new (.symbol 5), .new (.symbol 6)}, none⟩) = some after →
      after.incomplete = true ∨ ∀ write ∈ assignsField.writes,
        Reflected (instantiateAtCall (fun _ _ => true) callOfTwo ⟨∅, ∅⟩ 2 0 none assignsField
          (beforeCall ⟨.known {.new (.symbol 5), .new (.symbol 6)}, none⟩))
          (beforeCall ⟨.known {.new (.symbol 5), .new (.symbol 6)}, none⟩) after write := by
  intro h
  obtain hincomplete | hreflected := h _ rfl
  · exact absurd hincomplete (by decide)
  · have htarget : instantiateAtCall (fun _ _ => true) callOfTwo ⟨∅, ∅⟩ 2 0 none assignsField
        (beforeCall ⟨.known {.new (.symbol 5), .new (.symbol 6)}, none⟩)
        (.project (.formalParam 0) (.field "f")) =
        some ⟨.known {⟨.symbol 5, [.field "f"]⟩, ⟨.symbol 6, [.field "f"]⟩}, none⟩ := by decide
    have hlost := (hreflected _ List.mem_cons_self _ _ htarget rfl ⟨.symbol 5, [.field "f"]⟩
      (Finset.mem_insert_self _ _)).2
    exact absurd hlost (by decide)

end EtasFrontend.Alias
