import EtasFrontend.Types.RowSolver

/-! The row solver finds the least solution of a system of equations for one parameter, if there
is one. -/
namespace EtasFrontend.Types
open Lib

/-! Results by origin. -/

private theorem matchesAt_modify {f : EffectRowInference → EffectRowInference} {b : Bool}
    (hf : ∀ r, (f r).isMatch = (r.isMatch && b)) (results : List EffectRowInference) (i j : ℕ) :
    matchesAt (results.modify i f) j = (matchesAt results j && (b || i != j)) := by
  unfold matchesAt
  rw [List.getElem?_modify]
  cases results[j]? with
  | none => rfl
  | some r =>
    by_cases hij : i = j
    · simp [hij, hf]
    · simp [hij]

theorem matchesAt_andMatches (results : List EffectRowInference) (i j : ℕ) (b : Bool) :
    matchesAt (andMatches results i b) j = (matchesAt results j && (b || i != j)) :=
  matchesAt_modify (fun _ => rfl) results i j

theorem matchesAt_pushConcrete (results : List EffectRowInference) (i j : ℕ) (x : String)
    (equation : EffectRowEquation) :
    matchesAt (pushConcrete results i x equation) j = matchesAt results j := by
  unfold pushConcrete
  rw [matchesAt_modify (b := true) (by simp)]
  simp

variable {inputs : InferenceInputs}

theorem matchesAt_recordConcrete (equations : List RowEquation)
    (results : List EffectRowInference) (j : ℕ) :
    matchesAt (equations.foldl (recordConcrete inputs) results) j = matchesAt results j := by
  induction equations generalizing results with
  | nil => rfl
  | cons e equations ih =>
    rw [List.foldl_cons, ih, recordConcrete]
    split_ifs
    · rfl
    · exact matchesAt_pushConcrete ..

/-- What the first loop does to the inferred row and to the results when nothing is bound yet. -/
structure Collected (inputs : InferenceInputs) (group : List RowEquation)
    (results results' : List EffectRowInference) (inferred inferred' : Option EffectRowRef) :
    Prop where
  origin : ∀ j, matchesAt results' j = true → matchesAt results j = true
  keeps : ∀ old, inferred = some old →
    ∃ row, inferred' = some row ∧ row.tail = old.tail ∧ old.effects ⊆ row.effects
  passed : ∀ e ∈ group, matchesAt results' e.origin = true →
    ∃ row, inferred' = some row ∧ row.tail = e.actual.tail
  members : ∀ row, inferred' = some row → ∀ m ∈ row.effects,
    (∃ old, inferred = some old ∧ m ∈ old.effects) ∨
      ∃ e ∈ group, m ∈ e.residual inputs.equivalent
  residuals : ∀ e ∈ group, e.coversFixed inputs.equivalent = true →
    ∃ row, inferred' = some row ∧
      Within inputs.equivalent (e.residual inputs.equivalent) row.effects
  clean : ∀ tail, (∀ e ∈ group, e.coversFixed inputs.equivalent = true ∧ e.actual.tail = tail) →
    (∀ old, inferred = some old → old.tail = tail) →
      ∀ j, matchesAt results' j = matchesAt results j

variable {group : List RowEquation} {results results' : List EffectRowInference}
  {inferred inferred' : Option EffectRowRef}

variable {e : RowEquation}

private theorem Collected.skip (hcov : e.coversFixed inputs.equivalent = false)
    (h : Collected inputs group (andMatches results e.origin false) results' inferred inferred') :
    Collected inputs (e :: group) results results' inferred inferred' where
  origin j hj := by
    have := h.origin j hj
    rw [matchesAt_andMatches, Bool.and_eq_true] at this
    exact this.1
  keeps := h.keeps
  passed e' he' hm := by
    rcases List.mem_cons.mp he' with rfl | he'
    · have := h.origin _ hm
      simp [matchesAt_andMatches] at this
    · exact h.passed e' he' hm
  members row hrow m hm := (h.members row hrow m hm).imp id
    fun ⟨e', he', hr⟩ => ⟨e', List.mem_cons_of_mem _ he', hr⟩
  residuals e' he' hc := by
    rcases List.mem_cons.mp he' with rfl | he'
    · rw [hcov] at hc
      cases hc
    · exact h.residuals e' he' hc
  clean tail ht _ := by
    have := (ht e List.mem_cons_self).1
    rw [hcov] at this
    cases this

/-- The residual of an equation goes into the row. -/
private theorem Collected.take (he : IsEquivalence inputs.equivalent)
    {row : EffectRowRef} (hrow : row = inferred.getD ⟨[], e.actual.tail⟩)
    (h : Collected inputs group
      (if row.tail = e.actual.tail then results else andMatches results e.origin false) results'
      (some ⟨pushNew inputs.equivalent row.effects (e.residual inputs.equivalent), row.tail⟩)
      inferred') :
    Collected inputs (e :: group) results results' inferred inferred' := by
  obtain ⟨hold, hnew, hres⟩ := pushNew_spec he row.effects (e.residual inputs.equivalent)
  obtain ⟨last, hlast, htail, hsub⟩ := h.keeps _ rfl
  refine ⟨fun j hj => ?_, fun old ho => ?_, fun e' he' hm => ?_, fun row' hrow' m hm => ?_,
    fun e' he' hc => ?_, fun tail ht hold => ?_⟩
  · have := h.origin j hj
    split_ifs at this
    · exact this
    · rw [matchesAt_andMatches, Bool.and_eq_true] at this
      exact this.1
  · subst ho
    subst hrow
    exact ⟨last, hlast, htail, fun m hm => hsub (hold hm)⟩
  · rcases List.mem_cons.mp he' with rfl | he'
    · have hm' := h.origin _ hm
      split_ifs at hm' with heq
      · exact ⟨last, hlast, htail.trans heq⟩
      · simp [matchesAt_andMatches] at hm'
    · exact h.passed e' he' hm
  · rcases h.members row' hrow' m hm with ⟨_, hsome, hin⟩ | ⟨e', he', hr⟩
    · cases hsome
      rcases List.mem_append.mp (hnew hin) with hin | hin
      · cases inferred with
        | none =>
          subst hrow
          cases hin
        | some old =>
          subst hrow
          exact Or.inl ⟨_, rfl, hin⟩
      · exact Or.inr ⟨e, List.mem_cons_self, hin⟩
    · exact Or.inr ⟨e', List.mem_cons_of_mem _ he', hr⟩
  · rcases List.mem_cons.mp he' with rfl | he'
    · exact ⟨last, hlast, fun m hm => by
        obtain ⟨x, hx, hmx⟩ := hres m hm
        exact ⟨x, hsub hx, hmx⟩⟩
    · exact h.residuals e' he' hc
  · have hte := (ht e List.mem_cons_self).2
    have hrt : row.tail = tail := by
      cases inferred with
      | none =>
        subst hrow
        exact hte
      | some old =>
        subst hrow
        exact hold _ rfl
    intro j
    rw [h.clean tail (fun e' h' => ht e' (List.mem_cons_of_mem _ h')) (fun _ hs => by cases hs; exact hrt),
      if_pos (hrt.trans hte.symm)]

theorem collect_spec (he : IsEquivalence inputs.equivalent)
    (hknown : ∀ e ∈ group, e.isDeferred inputs = false) (results : List EffectRowInference)
    (inferred : Option EffectRowRef) :
    Collected inputs group results
      (group.foldl (collectStep inputs none) (results, inferred)).1 inferred
      (group.foldl (collectStep inputs none) (results, inferred)).2 := by
  induction group generalizing results inferred with
  | nil =>
    exact ⟨fun _ h => h, fun old h => ⟨old, h, rfl, List.Subset.refl _⟩, by simp,
      fun row h m hm => Or.inl ⟨row, h, hm⟩, by simp, fun _ _ _ _ => rfl⟩
  | cons e group ih =>
    have hd := hknown e List.mem_cons_self
    replace ih := ih fun e' h => hknown e' (List.mem_cons_of_mem _ h)
    rw [List.foldl_cons]
    cases hcov : e.coversFixed inputs.equivalent with
    | false =>
      have hstep : collectStep inputs none (results, inferred) e =
          (andMatches results e.origin false, inferred) := by simp [collectStep, hcov]
      rw [hstep]
      exact (ih _ _).skip hcov
    | true =>
      obtain ⟨row, hrow⟩ : ∃ row, row = inferred.getD ⟨[], e.actual.tail⟩ := ⟨_, rfl⟩
      have hstep : collectStep inputs none (results, inferred) e =
          (if row.tail = e.actual.tail then results else andMatches results e.origin false,
            some ⟨pushNew inputs.equivalent row.effects (e.residual inputs.equivalent),
              row.tail⟩) := by
        simp [collectStep, hcov, hd, hrow]
      rw [hstep]
      exact (ih _ _).take he hrow

/-- With a binding at hand the first loop only looks for the fixed members. -/
theorem collect_explicit {explicit : EffectRowRef}
    (hknown : ∀ e ∈ group, e.isDeferred inputs = false) (results : List EffectRowInference)
    (inferred : Option EffectRowRef) (j : ℕ) :
    matchesAt (group.foldl (collectStep inputs (some explicit)) (results, inferred)).1 j = true ↔
      matchesAt results j = true ∧
        ∀ e ∈ group, e.origin = j → e.coversFixed inputs.equivalent = true := by
  induction group generalizing results inferred with
  | nil => simp
  | cons e group ih =>
    have hd := hknown e List.mem_cons_self
    rw [List.foldl_cons]
    cases hcov : e.coversFixed inputs.equivalent with
    | false =>
      have hstep : collectStep inputs (some explicit) (results, inferred) e =
          (andMatches results e.origin false, inferred) := by simp [collectStep, hcov]
      rw [hstep, ih fun e' h => hknown e' (List.mem_cons_of_mem _ h), matchesAt_andMatches]
      simp [hcov, and_assoc]
    | true =>
      have hstep : collectStep inputs (some explicit) (results, inferred) e =
          (results, inferred) := by simp [collectStep, hcov, hd]
      rw [hstep, ih fun e' h => hknown e' (List.mem_cons_of_mem _ h)]
      simp [hcov]

theorem check_spec (he : IsEquivalence inputs.equivalent)
    (hknown : ∀ e ∈ group, e.isDeferred inputs = false) (bound : EffectRowRef)
    (results : List EffectRowInference) (j : ℕ) :
    matchesAt (group.foldl (checkStep inputs bound) results) j = true ↔
      matchesAt results j = true ∧
        ∀ e ∈ group, e.origin = j → Solves inputs.equivalent bound e := by
  induction group generalizing results with
  | nil => simp
  | cons e group ih =>
    have hd := hknown e List.mem_cons_self
    rw [List.foldl_cons, ih fun e' h => hknown e' (List.mem_cons_of_mem _ h)]
    simp only [checkStep, hd, Bool.false_eq_true, if_false, matchesAt_andMatches, Bool.and_eq_true,
      Bool.or_eq_true, solvedBy_iff he, bne_iff_ne, List.mem_cons, forall_eq_or_imp]
    tauto

variable {equations : List RowEquation} {bound : EffectRowRef}

section
variable {equivalent : EffectRef → EffectRef → Bool} {row : EffectRowRef} {e : RowEquation}

theorem coversFixed_iff : e.coversFixed equivalent = true ↔
    Within equivalent e.fixed e.actual.effects :=
  all_any_iff

variable (he : IsEquivalence equivalent)
include he

theorem Solves.residual (h : Solves equivalent row e) :
    Within equivalent (e.residual equivalent) row.effects := by
  obtain ⟨-, -, -, hall⟩ := (solves_iff he).mp h
  intro m hm
  obtain ⟨hin, hno⟩ := List.mem_filter.mp hm
  obtain ⟨y, hy, hmy⟩ := hall m hin
  rcases List.mem_append.mp hy with hy | hy
  · simp only [Bool.not_eq_true', List.any_eq_false] at hno
    exact absurd (he.symm hmy) (hno y hy)
  · exact ⟨y, hy, hmy⟩

theorem actual_within (h : Within equivalent (e.residual equivalent) row.effects) :
    Within equivalent e.actual.effects (e.fixed ++ row.effects) := by
  intro m hm
  by_cases hf : (e.fixed.any fun fixed => equivalent fixed m) = true
  · obtain ⟨y, hy, hym⟩ := List.any_eq_true.mp hf
    exact ⟨y, List.mem_append_left _ hy, he.symm hym⟩
  · obtain ⟨y, hy, hmy⟩ := h m (List.mem_filter.mpr ⟨hm, by simpa using hf⟩)
    exact ⟨y, List.mem_append_right _ hy, hmy⟩

theorem Solves.tail_eq {other : EffectRowRef} (h : Solves equivalent row e)
    (h' : Solves equivalent other e) : row.tail = other.tail :=
  ((solves_iff he).mp h).1.trans ((solves_iff he).mp h').1.symm

theorem within_of_residuals (hsol : ∀ e ∈ equations, Solves equivalent row e)
    (hm : ∀ m ∈ bound.effects, ∃ e ∈ equations, m ∈ e.residual equivalent) :
    Within equivalent bound.effects row.effects := by
  intro m hmem
  obtain ⟨e, hmem', hr⟩ := hm m hmem
  exact (hsol e hmem').residual he m hr

/-- A row made of residuals solves what a solution solves, once it holds all of them. -/
theorem solves_of_residuals (hsol : ∀ e ∈ equations, Solves equivalent row e)
    (hm : ∀ m ∈ bound.effects, ∃ e ∈ equations, m ∈ e.residual equivalent)
    (htail : bound.tail = row.tail)
    (hres : ∀ e ∈ equations, Within equivalent (e.residual equivalent) bound.effects) :
    ∀ e ∈ equations, Solves equivalent bound e := by
  intro e hmem
  obtain ⟨ht, hfix, hrow, -⟩ := (solves_iff he).mp (hsol e hmem)
  exact (solves_iff he).mpr ⟨htail.trans ht, hfix, (within_of_residuals he hsol hm).trans he hrow,
    actual_within he (hres e hmem)⟩

end

/-- Every equation's origin still matches. -/
def Succeeds (state : InferenceState) (equations : List RowEquation) : Prop :=
  ∀ e ∈ equations, matchesAt state.results e.origin = true

instance (state : InferenceState) (equations : List RowEquation) :
    Decidable (Succeeds state equations) :=
  inferInstanceAs (Decidable (∀ e ∈ equations, matchesAt state.results e.origin = true))

section
variable {state : InferenceState} {x : String} {equations : List RowEquation}

theorem solveGroup_explicit (he : IsEquivalence inputs.equivalent)
    (hknown : ∀ e ∈ equations, e.isDeferred inputs = false) (hstart : Succeeds state equations)
    {prior : EffectRowRef} (hp : state.bindings.get x = some prior) :
    Succeeds (solveGroup inputs state x equations) equations ↔
      ∀ e ∈ equations, Solves inputs.equivalent prior e := by
  simp only [Succeeds, solveGroup, hp, Option.some_or, check_spec he hknown,
    collect_explicit hknown]
  constructor
  · intro h e hmem
    exact (h e hmem).2 e hmem rfl
  · intro h e hmem
    refine ⟨⟨hstart e hmem, fun e' he' _ => ?_⟩, fun e' he' _ => h e' he'⟩
    exact coversFixed_iff.mpr ((solves_iff he).mp (h e' he')).2.1

/-- The outcome of a group for a parameter that is not bound yet. -/
theorem solveGroup_fresh (he : IsEquivalence inputs.equivalent)
    (hknown : ∀ e ∈ equations, e.isDeferred inputs = false) (hstart : Succeeds state equations)
    (hne : equations ≠ []) (hp : state.bindings.get x = none) :
    (Succeeds (solveGroup inputs state x equations) equations ∧
      ∃ bound, (solveGroup inputs state x equations).bindings.get x = some bound ∧
        (∀ e ∈ equations, Solves inputs.equivalent bound e) ∧
        ∀ m ∈ bound.effects, ∃ e ∈ equations, m ∈ e.residual inputs.equivalent) ∨
    (¬ Succeeds (solveGroup inputs state x equations) equations ∧
      (solveGroup inputs state x equations).bindings.get x = none ∧
        ¬ ∃ row, ∀ e ∈ equations, Solves inputs.equivalent row e) := by
  have hc := collect_spec he hknown state.results none
  obtain ⟨results, inferred, hfold⟩ :
      ∃ results inferred, equations.foldl (collectStep inputs none) (state.results, none) =
        (results, inferred) := ⟨_, _, rfl⟩
  rw [hfold] at hc
  obtain ⟨first, hfirst⟩ := List.exists_mem_of_ne_nil _ hne
  cases inferred with
  | none =>
    -- no equation got as far as the row, so none matches and none is solvable
    have hgroup : solveGroup inputs state x equations = { state with results } := by
      simp [solveGroup, hp, hfold]
    rw [hgroup]
    refine Or.inr ⟨fun h => ?_, hp, fun h => ?_⟩
    · obtain ⟨_, hsome, -⟩ := hc.passed first hfirst (h first hfirst)
      cases hsome
    · obtain ⟨row, hrow⟩ := h
      have hfix := ((solves_iff he).mp (hrow first hfirst)).2.1
      obtain ⟨_, hsome, -⟩ := hc.residuals first hfirst (coversFixed_iff.mpr hfix)
      cases hsome
  | some bound =>
    have hmembers : ∀ m ∈ bound.effects, ∃ e ∈ equations, m ∈ e.residual inputs.equivalent := by
      intro m hm
      rcases hc.members bound rfl m hm with ⟨_, h, -⟩ | h
      · cases h
      · exact h
    have hcheck := check_spec he hknown bound results
    obtain ⟨last, hlast⟩ :
        ∃ last, last = equations.foldl (checkStep inputs bound) results := ⟨_, rfl⟩
    rw [← hlast] at hcheck
    have hgroup : solveGroup inputs state x equations = { state with
        results := last
        bindings := if equations.all fun e => matchesAt last e.origin then
          state.bindings.insert x bound else state.bindings } := by
      simp [solveGroup, hp, hfold, hlast]
    have hsucc : Succeeds (solveGroup inputs state x equations) equations ↔
        (equations.all fun e => matchesAt last e.origin) = true := by
      simp [Succeeds, hgroup]
    by_cases hs : Succeeds (solveGroup inputs state x equations) equations
    · refine Or.inl ⟨hs, bound, ?_, fun e hmem => ?_, hmembers⟩
      · rw [hgroup, if_pos (hsucc.mp hs)]
        exact Map.get_insert_self ..
      · rw [hgroup] at hs
        exact ((hcheck _).mp (hs e hmem)).2 e hmem rfl
    · refine Or.inr ⟨hs, ?_, fun h => hs ?_⟩
      · rw [hgroup, if_neg (mt hsucc.mpr hs)]
        exact hp
      · -- a solution keeps the first loop clean, and then the residuals solve the system
        obtain ⟨row, hrow⟩ := h
        have hfacts : ∀ e ∈ equations,
            e.coversFixed inputs.equivalent = true ∧ e.actual.tail = row.tail := by
          intro e hmem
          obtain ⟨ht, hfix, -⟩ := (solves_iff he).mp (hrow e hmem)
          exact ⟨coversFixed_iff.mpr hfix, ht.symm⟩
        have hkept : ∀ e ∈ equations, matchesAt results e.origin = true := by
          intro e hmem
          rw [hc.clean row.tail hfacts (fun _ h => by cases h)]
          exact hstart e hmem
        have htail : bound.tail = row.tail := by
          obtain ⟨_, hsome, ht⟩ := hc.passed first hfirst (hkept first hfirst)
          cases hsome
          exact ht.trans (hfacts first hfirst).2
        have hres : ∀ e ∈ equations,
            Within inputs.equivalent (e.residual inputs.equivalent) bound.effects := by
          intro e hmem
          obtain ⟨_, hsome, hw⟩ := hc.residuals e hmem (hfacts e hmem).1
          cases hsome
          exact hw
        have hsolved := solves_of_residuals he hrow hmembers htail hres
        rw [hgroup]
        intro e hmem
        exact (hcheck _).mpr ⟨hkept e hmem, fun e' he' _ => hsolved e' he'⟩

end

private theorem mem_foldl_distinct (members row : List EffectRef) (m : EffectRef) :
    m ∈ members.foldl (fun effects effect =>
      if effect ∈ effects then effects else effects ++ [effect]) row ↔ m ∈ row ∨ m ∈ members := by
  induction members generalizing row with
  | nil => simp
  | cons x members ih =>
    rw [List.foldl_cons, ih]
    split_ifs with hx
    · constructor
      · rintro (h | h)
        · exact Or.inl h
        · exact Or.inr (List.mem_cons_of_mem _ h)
      · rintro (h | h)
        · exact Or.inl h
        · rcases List.mem_cons.mp h with rfl | h
          · exact Or.inl hx
          · exact Or.inr h
    · simp [or_assoc]

theorem specializeRow_equivalent {equivalent : EffectRef → EffectRef → Bool}
    (he : IsEquivalence equivalent) {bindings : Map String EffectRowRef} {x : String}
    (hb : bindings.get x = some bound) (h : Solves equivalent bound e) :
    rowsEquivalent equivalent (specializeRow ⟨e.fixed, some x⟩ bindings) e.actual = true := by
  obtain ⟨ht, hto, hfrom⟩ := (rowsEquivalent_iff he).mp h
  have hmem := mem_foldl_distinct bound.effects e.fixed
  refine (rowsEquivalent_iff he).mpr ?_
  simp only [specializeRow, hb]
  refine ⟨ht, fun m hm => hto m (List.mem_append.mpr ((hmem m).mp hm)), fun m hm => ?_⟩
  obtain ⟨y, hy, hmy⟩ := hfrom m hm
  exact ⟨y, (hmem y).mpr (List.mem_append.mp hy), hmy⟩

section
variable {state : InferenceState} {x : String}

private theorem solveRowEquations_eq (hx : ∀ e ∈ state.equations, e.parameter = x)
    (hne : state.equations ≠ []) :
    solveRowEquations inputs state = solveGroup inputs { state with
      equations := []
      results := state.equations.foldl (recordConcrete inputs) state.results } x
      state.equations := by
  have hparams : parametersOf state.equations = [x] := by
    have hrep : state.equations.map RowEquation.parameter =
        List.replicate state.equations.length x :=
      List.map_eq_replicate_iff.mpr hx
    rw [parametersOf, hrep, List.replicate_dedup (by simpa using hne)]
    rfl
  have hfilter : state.equations.filter (·.parameter == x) = state.equations :=
    List.filter_eq_self.mpr fun e hmem => by simpa using hx e hmem
  simp [solveRowEquations, hparams, hfilter]

/-- The outcome for a parameter that is not bound yet. -/
private theorem solveRowEquations_fresh (he : IsEquivalence inputs.equivalent)
    (state : InferenceState) (hx : ∀ e ∈ state.equations, e.parameter = x)
    (hknown : ∀ e ∈ state.equations, e.isDeferred inputs = false)
    (hstart : Succeeds state state.equations) (hp : state.bindings.get x = none)
    (hne : state.equations ≠ []) :
    (Succeeds (solveRowEquations inputs state) state.equations ∧
      ∃ bound, (solveRowEquations inputs state).bindings.get x = some bound ∧
        (∀ e ∈ state.equations, Solves inputs.equivalent bound e) ∧
        ∀ row, (∀ e ∈ state.equations, Solves inputs.equivalent row e) →
          bound.tail = row.tail ∧ Within inputs.equivalent bound.effects row.effects) ∨
    (¬ Succeeds (solveRowEquations inputs state) state.equations ∧
      (solveRowEquations inputs state).bindings.get x = none ∧
        ¬ ∃ row, ∀ e ∈ state.equations, Solves inputs.equivalent row e) := by
  rw [solveRowEquations_eq hx hne]
  obtain ⟨first, hfirst⟩ := List.exists_mem_of_ne_nil _ hne
  obtain ⟨st, hst⟩ : ∃ st, st = { state with
      equations := []
      results := state.equations.foldl (recordConcrete inputs) state.results } := ⟨_, rfl⟩
  have hst' : Succeeds st state.equations := by
    intro e hmem
    rw [hst, matchesAt_recordConcrete]
    exact hstart e hmem
  rw [← hst]
  refine (solveGroup_fresh he hknown hst' hne (by rw [hst]; exact hp)).imp ?_ id
  · rintro ⟨hs, bound, hb, hsol, hm⟩
    exact ⟨hs, bound, hb, hsol, fun row hrow => ⟨(hsol first hfirst).tail_eq he (hrow first hfirst),
      within_of_residuals he hrow hm⟩⟩

/-- Two orders of one system come to the same outcome. -/
private theorem solveRowEquations_perm (he : IsEquivalence inputs.equivalent)
    (hx : ∀ e ∈ state.equations, e.parameter = x)
    (hknown : ∀ e ∈ state.equations, e.isDeferred inputs = false)
    (hstart : Succeeds state state.equations) (hp : state.bindings.get x = none)
    (hperm : equations.Perm state.equations) :
    (Succeeds (solveRowEquations inputs { state with equations }) equations ↔
      Succeeds (solveRowEquations inputs state) state.equations) ∧
    Option.Rel (fun r s => rowsEquivalent inputs.equivalent r s = true)
      ((solveRowEquations inputs { state with equations }).bindings.get x)
      ((solveRowEquations inputs state).bindings.get x) := by
  by_cases hne : state.equations = []
  · rw [hne] at hperm
    have : { state with equations } = state := by
      rw [hperm.eq_nil, ← hne]
    rw [this, hperm.eq_nil, hne]
    refine ⟨Iff.rfl, ?_⟩
    have hb : (solveRowEquations inputs state).bindings.get x = none := by
      simp [solveRowEquations, hne, parametersOf, hp]
    rw [hb]
    exact .none
  · have hmem : ∀ {e}, e ∈ equations ↔ e ∈ state.equations := fun {e} => hperm.mem_iff
    have hne' : equations ≠ [] := fun h => hne (h ▸ hperm).symm.eq_nil
    rcases solveRowEquations_fresh he state hx hknown hstart hp hne with
        ⟨hs, bound, hb, hsol, hleast⟩ | ⟨hs, hb, hno⟩ <;>
      rcases solveRowEquations_fresh he { state with equations }
        (fun e h => hx e (hmem.mp h)) (fun e h => hknown e (hmem.mp h))
        (fun e h => hstart e (hmem.mp h)) hp hne' with
        ⟨hs', bound', hb', hsol', hleast'⟩ | ⟨hs', hb', hno'⟩
    · refine ⟨iff_of_true hs' hs, ?_⟩
      rw [hb, hb']
      obtain ⟨ht, hw⟩ := hleast bound' fun e h => hsol' e (hmem.mpr h)
      obtain ⟨-, hw'⟩ := hleast' bound fun e h => hsol e (hmem.mp h)
      exact .some ((rowsEquivalent_iff he).mpr ⟨ht.symm, hw', hw⟩)
    · exact absurd ⟨bound, fun e h => hsol e (hmem.mp h)⟩ hno'
    · exact absurd ⟨bound', fun e h => hsol' e (hmem.mpr h)⟩ hno
    · refine ⟨iff_of_false hs' hs, ?_⟩
      rw [hb, hb']
      exact .none

private theorem solveRowEquations_prior (he : IsEquivalence inputs.equivalent)
    (hx : ∀ e ∈ state.equations, e.parameter = x)
    (hknown : ∀ e ∈ state.equations, e.isDeferred inputs = false)
    (hstart : Succeeds state state.equations) {prior : EffectRowRef}
    (hp : state.bindings.get x = some prior) :
    Succeeds (solveRowEquations inputs state) state.equations ↔
      ∀ e ∈ state.equations, Solves inputs.equivalent prior e := by
  by_cases hne : state.equations = []
  · simp [Succeeds, hne]
  · rw [solveRowEquations_eq hx hne]
    refine solveGroup_explicit he hknown (fun e hmem => ?_) hp
    rw [matchesAt_recordConcrete]
    exact hstart e hmem

end

/-- Equations `fixed ∪ X = actual` for one parameter with known actual rows. Without a binding of
the parameter the solver succeeds exactly when the system has a solution; it then binds a least
one, which turns each expected row into the actual one, and the order of the equations does not
matter. With a binding it succeeds exactly when the binding is a solution. -/
theorem solveRowEquations_least (he : IsEquivalence inputs.equivalent) (state : InferenceState)
    {x : String} (hx : ∀ e ∈ state.equations, e.parameter = x)
    (hknown : ∀ e ∈ state.equations, e.isDeferred inputs = false)
    (hstart : Succeeds state state.equations) :
    (state.bindings.get x = none →
      (Succeeds (solveRowEquations inputs state) state.equations ↔
        ∃ row, ∀ e ∈ state.equations, Solves inputs.equivalent row e) ∧
      (Succeeds (solveRowEquations inputs state) state.equations → state.equations ≠ [] →
        ∃ bound, (solveRowEquations inputs state).bindings.get x = some bound ∧
          (∀ e ∈ state.equations, Solves inputs.equivalent bound e) ∧
          (∀ row, (∀ e ∈ state.equations, Solves inputs.equivalent row e) →
            bound.tail = row.tail ∧ Within inputs.equivalent bound.effects row.effects) ∧
          ∀ e ∈ state.equations, rowsEquivalent inputs.equivalent
            (specializeRow ⟨e.fixed, some x⟩ (solveRowEquations inputs state).bindings)
            e.actual = true) ∧
      ∀ equations, equations.Perm state.equations →
        (Succeeds (solveRowEquations inputs { state with equations }) equations ↔
          Succeeds (solveRowEquations inputs state) state.equations) ∧
        Option.Rel (fun r s => rowsEquivalent inputs.equivalent r s = true)
          ((solveRowEquations inputs { state with equations }).bindings.get x)
          ((solveRowEquations inputs state).bindings.get x)) ∧
    ∀ prior, state.bindings.get x = some prior →
      (Succeeds (solveRowEquations inputs state) state.equations ↔
        ∀ e ∈ state.equations, Solves inputs.equivalent prior e) := by
  refine ⟨fun hp => ⟨?_, fun hs hne => ?_, fun equations hperm => ?_⟩, fun prior hp => ?_⟩
  · by_cases hne : state.equations = []
    · exact iff_of_true (by simp [Succeeds, hne]) ⟨⟨[], none⟩, by simp [hne]⟩
    · rcases solveRowEquations_fresh he state hx hknown hstart hp hne with
        ⟨hs, bound, -, hsol, -⟩ | ⟨hs, -, hno⟩
      · exact iff_of_true hs ⟨bound, hsol⟩
      · exact iff_of_false hs hno
  · rcases solveRowEquations_fresh he state hx hknown hstart hp hne with
      ⟨-, bound, hb, hsol, hleast⟩ | ⟨hs', -⟩
    · exact ⟨bound, hb, hsol, hleast, fun e hmem => specializeRow_equivalent he hb (hsol e hmem)⟩
    · exact absurd hs hs'
  · exact solveRowEquations_perm he hx hknown hstart hp hperm
  · exact solveRowEquations_prior he hx hknown hstart hp

/-- Two equations for `e`, one with a fixed member. -/
def sampleState : InferenceState := { InferenceState.start ∅ 2 with
  equations := [⟨"e", [⟨"Log", []⟩], ⟨[⟨"Log", []⟩, ⟨"Net", []⟩], none⟩, 0⟩,
    ⟨"e", [], ⟨[⟨"Net", []⟩], none⟩, 1⟩] }

def sampleInputs : InferenceInputs := ⟨fun a b => a = b, ["e"], []⟩

theorem solveRowEquations_least_sample :
    Succeeds (solveRowEquations sampleInputs sampleState) sampleState.equations ∧
      ∃ bound, (solveRowEquations sampleInputs sampleState).bindings.get "e" = some bound ∧
        ∀ e ∈ sampleState.equations, Solves sampleInputs.equivalent bound e := by
  have he : IsEquivalence sampleInputs.equivalent :=
    ⟨by simp [sampleInputs], by simp [sampleInputs], by simp [sampleInputs]⟩
  obtain ⟨hfresh, -⟩ := solveRowEquations_least he sampleState (x := "e")
    (by decide) (by decide) (by decide)
  obtain ⟨hiff, hbound, -⟩ := hfresh rfl
  have hs := hiff.mpr ⟨⟨[⟨"Net", []⟩], none⟩, by decide⟩
  obtain ⟨bound, hb, hsol, -⟩ := hbound hs (by decide)
  exact ⟨hs, bound, hb, hsol⟩

end EtasFrontend.Types
