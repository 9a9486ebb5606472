import EtasFrontend.Types.SubstitutionExisting

/-! Expanding a row through equations of its tail: when it succeeds, and what the result holds. -/
namespace EtasFrontend.Types
open Lib Relation

/-- What `substitute_effect_row` does to the row itself under equations: members are added along
the chain of tails, and an added one stays when it is the first of its kind. -/
def expandRow (equations : Map String EffectRowRef) (row : EffectRowRef) :
    Except TypeSubstitutionError EffectRowRef :=
  match expandEquations equations none 0 (equations.toList.length + 1) [] row with
  | .error error => .error error
  | .ok expanded =>
    .ok { expanded with effects := uniqueMembers row.effects.length [] expanded.effects }

/-- The equation of `tail` says nothing. -/
def IsIdentity (tail : String) (binding : EffectRowRef) : Prop :=
  binding.effects = [] ∧ binding.tail = some tail

/-- The chain of tails goes on from `tail` with `binding`. -/
def Continues (equations : Map String EffectRowRef) (tail : String) (binding : EffectRowRef) :
    Prop :=
  equations.get tail = some binding ∧ ¬ IsIdentity tail binding

/-- No equation but an identity is left for the tail. -/
def NoFurther (equations : Map String EffectRowRef) (tail : Option String) : Prop :=
  ∀ t ∈ tail, ∀ binding, ¬ Continues equations t binding

/-- `next` follows `tail` in a chain of tails. -/
def TailStep (equations : Map String EffectRowRef) (tail next : String) : Prop :=
  ∃ binding, Continues equations tail binding ∧ binding.tail = some next

/-- The chain from a tail ends, with the members of its rows in order and the tail it ends in. -/
inductive RowChain (equations : Map String EffectRowRef) :
    Option String → List EffectRef → Option String → Prop
  | done {tail : Option String} (h : NoFurther equations tail) : RowChain equations tail [] tail
  | step {tail : String} {binding : EffectRowRef} {members : List EffectRef}
      {final : Option String} (h : Continues equations tail binding)
      (rest : RowChain equations binding.tail members final) :
      RowChain equations (some tail) (binding.effects ++ members) final

/-- The chain from a tail runs into a cycle. -/
def RunsIntoCycle (equations : Map String EffectRowRef) (tail : Option String) : Prop :=
  ∃ t ∈ tail, ∃ c, ReflTransGen (TailStep equations) t c ∧ TransGen (TailStep equations) c c

variable {equations : Map String EffectRowRef}

theorem RowChain.noFurther {tail final : Option String} {members : List EffectRef}
    (h : RowChain equations tail members final) : NoFurther equations final := by
  induction h with
  | done h => exact h
  | step _ _ ih => exact ih

theorem RowChain.not_cycle {tail final : Option String} {members : List EffectRef}
    (h : RowChain equations tail members final) : ¬ RunsIntoCycle equations tail := by
  induction h with
  | @done tail hdone =>
    intro ⟨t, ht, c, hreach, hcycle⟩
    have hno : ∀ d, ¬ TailStep equations t d := fun d ⟨binding, hb, _⟩ => hdone t ht binding hb
    rcases hreach.cases_head with rfl | ⟨d, hd, -⟩
    · obtain ⟨d, hd, -⟩ := TransGen.head'_iff.mp hcycle
      exact hno d hd
    · exact hno d hd
  | @step tail binding members final hb _ ih =>
    intro ⟨t, ht, c, hreach, hcycle⟩
    cases ht
    have hnext : ∀ {d}, TailStep equations tail d → binding.tail = some d := by
      intro d ⟨binding', hb', hd⟩
      have hsame := hb.1.symm.trans hb'.1
      cases hsame
      exact hd
    rcases hreach.cases_head with rfl | ⟨d, hd, hdc⟩
    · obtain ⟨d, hd, hdc⟩ := TransGen.head'_iff.mp hcycle
      exact ih ⟨d, hnext hd, tail, hdc, hcycle⟩
    · exact ih ⟨d, hnext hd, c, hdc, hcycle⟩

/-- What a result of the loop says about the chain. -/
def ExpandOutcome (equations : Map String EffectRowRef) (row : EffectRowRef) :
    Except TypeSubstitutionError EffectRowRef → Prop
  | .ok result => ∃ members, RowChain equations row.tail members result.tail ∧
      result.effects = row.effects ++ members
  | .error error => RunsIntoCycle equations row.tail ∧ ∃ name, error = .cyclicEffectRow name

/-- The loop ends where the chain does, or has met a tail twice. The bound is on what is left of
the keys. -/
private theorem expandEquations_outcome {keys : List String}
    (hkeys : ∀ t binding, equations.get t = some binding → t ∈ keys) (active n : ℕ)
    (visited : List String) (row : EffectRowRef) (hn : keys.length + 1 ≤ n + visited.length)
    (hd : visited.Nodup) (hsub : visited ⊆ keys)
    (hpast : ∀ v ∈ visited, ∀ t ∈ row.tail, TransGen (TailStep equations) v t) :
    ExpandOutcome equations row (expandEquations equations none active n visited row) := by
  induction n generalizing visited row with
  | zero =>
    have := (List.subperm_of_subset hd hsub).length_le
    omega
  | succ n ih =>
    unfold expandEquations
    cases htail : row.tail with
    | none =>
      have hdone : NoFurther equations row.tail := by
        intro t ht
        rw [htail] at ht
        cases ht
      exact ⟨[], .done hdone, (List.append_nil _).symm⟩
    | some tail =>
      dsimp only
      cases hget : equations.get tail with
      | none =>
        have hdone : NoFurther equations row.tail := by
          intro t ht binding hb
          rw [htail] at ht
          cases ht
          cases hget.symm.trans hb.1
        exact ⟨[], .done hdone, (List.append_nil _).symm⟩
      | some binding =>
        dsimp only
        split_ifs with hid hvis
        · have hdone : NoFurther equations row.tail := by
            intro t ht binding' hb
            rw [htail] at ht
            cases ht
            have hsame := hget.symm.trans hb.1
            cases hsame
            exact hb.2 (by simpa [IsIdentity] using hid)
          exact ⟨[], .done hdone, (List.append_nil _).symm⟩
        · have hcycle := hpast tail hvis tail htail
          exact ⟨⟨tail, htail, tail, .refl, hcycle⟩, tail, rfl⟩
        · have hcont : Continues equations tail binding :=
            ⟨hget, fun h => hid (by simpa [IsIdentity] using h)⟩
          have hin : tail :: visited ⊆ keys := List.cons_subset.mpr ⟨hkeys tail binding hget, hsub⟩
          have hlen : keys.length + 1 ≤ n + (tail :: visited).length := by
            rw [List.length_cons]
            omega
          have hpast' : ∀ v ∈ tail :: visited, ∀ t ∈ binding.tail,
              TransGen (TailStep equations) v t := by
            intro v hv t ht
            have hstep : TailStep equations tail t := ⟨binding, hcont, ht⟩
            rcases List.mem_cons.mp hv with rfl | hv
            · exact .single hstep
            · exact (hpast v hv tail htail).tail hstep
          have hrest := ih (tail :: visited) ⟨row.effects ++ binding.effects, binding.tail⟩ hlen
            (hd.cons hvis) hin hpast'
          rw [Option.filter_none]
          dsimp only
          cases hr : expandEquations equations none active n (tail :: visited)
              ⟨row.effects ++ binding.effects, binding.tail⟩ with
          | ok result =>
            rw [hr] at hrest
            obtain ⟨members, hchain, heffects⟩ := hrest
            refine ⟨binding.effects ++ members, ?_, ?_⟩
            · rw [htail]
              exact .step hcont hchain
            · rw [heffects, List.append_assoc]
          | error e =>
            rw [hr] at hrest
            obtain ⟨⟨t, ht, c, hreach, hcycle⟩, hname⟩ := hrest
            have hstep : TailStep equations tail t := ⟨binding, hcont, ht⟩
            exact ⟨⟨tail, htail, c, .head hstep hreach, hcycle⟩, hname⟩

theorem expandEquations_spec (equations : Map String EffectRowRef) (active : ℕ)
    (row : EffectRowRef) :
    ExpandOutcome equations row
      (expandEquations equations none active (equations.toList.length + 1) [] row) := by
  have hkeys : ∀ t binding, equations.get t = some binding →
      t ∈ equations.toList.map Prod.fst := by
    intro t binding h
    exact List.mem_map.mpr ⟨(t, binding), Map.mem_toList.mpr h, rfl⟩
  refine expandEquations_outcome hkeys active _ [] row ?_ List.nodup_nil (List.nil_subset _) ?_
  · rw [List.length_map, List.length_nil, Nat.add_zero]
  · intro v hv
    cases hv

theorem uniqueMembers_zero (seen effects : List EffectRef) :
    uniqueMembers 0 seen effects = (effects.filter fun e => e ∉ seen).eraseDups := by
  induction effects generalizing seen with
  | nil => rfl
  | cons effect rest ih =>
    unfold uniqueMembers
    by_cases h : effect ∈ seen
    · rw [if_neg (by simp [h]), ih, List.filter_cons_of_neg (by simp [h])]
    · rw [if_pos (by simp [h]), ih, List.filter_cons_of_pos (by simp [h]), List.eraseDups_cons,
        List.filter_filter]
      congr 2
      refine List.filter_congr fun e _ => ?_
      by_cases he : e = effect
      · simp [he]
      · simp [he]

theorem uniqueMembers_append (own added seen : List EffectRef) :
    uniqueMembers own.length seen (own ++ added) =
      own ++ (added.filter fun e => e ∉ seen ∧ e ∉ own).eraseDups := by
  induction own generalizing seen with
  | nil =>
    rw [List.nil_append, List.nil_append]
    have h := uniqueMembers_zero seen added
    simpa using h
  | cons effect own ih =>
    rw [List.cons_append, uniqueMembers, List.length_cons, if_pos (by simp), Nat.add_sub_cancel, ih,
      List.cons_append]
    congr 3
    refine List.filter_congr fun e _ => ?_
    simp [and_assoc, and_left_comm]

/-- Expanding a row ends. It succeeds exactly when the chain of tails runs into no cycle; then no
equation is left for the tail, the members are those of the row followed by those of the chain,
each added the first time it occurs, and expanding the result changes nothing. -/
theorem expandRow_spec (equations : Map String EffectRowRef) (row : EffectRowRef) :
    ((∃ result, expandRow equations row = .ok result) ↔ ¬ RunsIntoCycle equations row.tail) ∧
    ∀ result, expandRow equations row = .ok result →
      NoFurther equations result.tail ∧
      (∃ members, RowChain equations row.tail members result.tail ∧
        result.effects = row.effects ++ (members.filter fun e => e ∉ row.effects).eraseDups) ∧
      expandRow equations result = .ok result := by
  have hspec := expandEquations_spec equations 0 row
  have hok : ∀ result, expandRow equations row = .ok result →
      ∃ members, RowChain equations row.tail members result.tail ∧
        result.effects = row.effects ++ (members.filter fun e => e ∉ row.effects).eraseDups := by
    intro result h
    unfold expandRow at h
    cases hr : expandEquations equations none 0 (equations.toList.length + 1) [] row with
    | error e =>
      rw [hr] at h
      cases h
    | ok expanded =>
      rw [hr] at h hspec
      cases h
      obtain ⟨members, hchain, heffects⟩ := hspec
      refine ⟨members, hchain, ?_⟩
      have happend := uniqueMembers_append row.effects members []
      simpa [heffects] using happend
  refine ⟨⟨fun ⟨result, h⟩ => ?_, fun hno => ?_⟩, fun result h => ?_⟩
  · obtain ⟨members, hchain, -⟩ := hok result h
    exact hchain.not_cycle
  · unfold expandRow
    cases hr : expandEquations equations none 0 (equations.toList.length + 1) [] row with
    | error e =>
      rw [hr] at hspec
      exact absurd hspec.1 hno
    | ok expanded => exact ⟨_, rfl⟩
  · obtain ⟨members, hchain, heffects⟩ := hok result h
    refine ⟨hchain.noFurther, ⟨members, hchain, heffects⟩, ?_⟩
    have hagain := expandEquations_spec equations 0 result
    unfold expandRow
    cases hr : expandEquations equations none 0 (equations.toList.length + 1) [] result with
    | error e =>
      rw [hr] at hagain
      have hdone : RowChain equations result.tail [] result.tail := .done hchain.noFurther
      exact absurd hagain.1 hdone.not_cycle
    | ok expanded =>
      rw [hr] at hagain
      obtain ⟨members', hchain', heffects'⟩ := hagain
      -- the tail of the result ends its own chain
      have hnil : members' = [] ∧ expanded.tail = result.tail := by
        generalize htail : result.tail = tail at hchain'
        generalize hfinal : expanded.tail = final at hchain'
        cases hchain' with
        | done _ => exact ⟨rfl, rfl⟩
        | step hb _ => exact absurd hb (hchain.noFurther _ htail _)
      rw [hnil.1, List.append_nil] at heffects'
      have hkeep := uniqueMembers_eq [] expanded.effects (n := result.effects.length)
        (by rw [heffects'])
      dsimp only
      rw [hkeep, heffects', hnil.2]

private def twoEquations : Map String EffectRowRef :=
  .ofList [("a", ⟨[⟨"Io", []⟩, ⟨"Log", []⟩], some "b"⟩), ("b", ⟨[⟨"Net", []⟩, ⟨"Io", []⟩], some "c"⟩)]

theorem expandRow_spec_two : ∃ result,
    expandRow twoEquations ⟨[⟨"Log", []⟩], some "a"⟩ = .ok result ∧
    result.effects = [⟨"Log", []⟩, ⟨"Io", []⟩, ⟨"Net", []⟩] ∧ NoFurther twoEquations result.tail ∧
    expandRow twoEquations result = .ok result :=
  have h := (expandRow_spec twoEquations ⟨[⟨"Log", []⟩], some "a"⟩).2 _ rfl
  ⟨_, rfl, rfl, h.1, h.2.2⟩

/-- A member that the row has twice stays twice, and is not added again from the chain: this is
neither the whole list without duplicates nor the row before the chain without duplicates. -/
theorem expandRow_twice :
    let log : EffectRef := ⟨"Log", []⟩
    expandRow (.ofList [("a", ⟨[log], none⟩)]) ⟨[log, log], some "a"⟩ = .ok ⟨[log, log], none⟩ ∧
      [log, log] ≠ ([log, log] ++ [log]).eraseDups ∧
      [log, log] ≠ [log, log] ++ [log].eraseDups :=
  ⟨rfl, by decide, by decide⟩

variable {T : Type} {target : SubstitutionTarget T}
  {sub : SubstitutionInput → TypeId → EngineM T TypeId} {σ : SubstitutionInput} {engine : Engine T}

theorem expandEquations_active (equations : Map String EffectRowRef) (active active' n : ℕ)
    (visited : List String) (row : EffectRowRef) :
    expandEquations equations none active n visited row =
      expandEquations equations none active' n visited row := by
  induction n generalizing visited row with
  | zero => rfl
  | succ n ih =>
    unfold expandEquations
    simp only [Option.filter_none, ih]

theorem substituteEffectRow_expandRow (hrows : σ.effectRows = some (.equations equations))
    (hdepth : σ.expansionDepth = none) (hsub : ∀ b, Returns (sub σ b) engine b)
    (row : EffectRowRef) :
    substituteEffectRow target sub σ row engine = some (expandRow equations row, engine) := by
  have hexpanded : σ.expandedRow engine.active.card row =
      (expandEquations equations none 0 (equations.toList.length + 1) [] row).map
        fun row => ⟨row, none⟩ := by
    unfold SubstitutionInput.expandedRow
    rw [hrows, hdepth]
    dsimp only
    rw [expandEquations_active equations engine.active.card 0]
  unfold expandRow
  cases hr : expandEquations equations none 0 (equations.toList.length + 1) [] row with
  | error e =>
    have hfail : (fun engine => some (σ.expandedRow engine.active.card row, engine) :
        EngineM T ExpandedRow) engine = some (.error e, engine) := by
      simp only [hexpanded, hr]
      rfl
    exact bind_error hfail _
  | ok expanded =>
    have hexpand : Returns
        (fun engine => some (σ.expandedRow engine.active.card row, engine) : EngineM T ExpandedRow)
        engine ⟨expanded, none⟩ := by
      simp only [Returns, hexpanded, hr]
      rfl
    have hid : EffectRef.map (id : TypeId → TypeId) = id := by
      funext effect
      have harg : EffectArgRef.map (id : TypeId → TypeId) = id := by
        funext arg
        cases arg <;> rfl
      simp [EffectRef.map, harg]
    have heffects : Returns (expanded.effects.zipIdx.mapM fun p =>
        substituteEffect target sub σ ((none : Option ℕ).any (· ≤ p.2)) p.1) engine
        (expanded.effects.zipIdx.map fun p => p.1.map id) :=
      Returns.mapM fun p _ => substituteEffect_returns fun b _ => hsub b
    have hmap : (expanded.effects.zipIdx.map fun p => p.1.map (id : TypeId → TypeId)) =
        expanded.effects := by
      rw [hid]
      exact List.zipIdx_map_fst 0 expanded.effects
    rw [hmap] at heffects
    exact (hexpand.bind (heffects.bind (.pure _)))

end EtasFrontend.Types
