import EtasFrontend.Types.SubstitutionDepth

/-! An engine that has answered calls before, beside a fresh one. -/
namespace EtasFrontend.Types
open Lib Relation

variable {S : TypeStore} {σ : SubstitutionInput}

/-! The depths of a run. -/

/-- A call for `root` comes to a type with that many types around it. -/
inductive ReachedAt (S : TypeStore) (σ : SubstitutionInput) (root : TypeId) : ℕ → TypeId → Prop
  | root : ReachedAt S σ root 0 root
  | step {k : ℕ} {b c : TypeId} {as : List TypeId} (h : ReachedAt S σ root k b)
      (hb : dependencies σ S (k + 1) b = .ok as) (hc : c ∈ as) : ReachedAt S σ root (k + 1) c

/-- What a type depends on is the same at all depths at which the calls come to it. -/
def Steady (S : TypeStore) (σ : SubstitutionInput) (roots : List TypeId) : Prop :=
  ∀ a ∈ roots, ∀ b ∈ roots, ∀ k l c, ReachedAt S σ a k c → ReachedAt S σ b l c →
    (dependencies σ S (k + 1) c).toOption = (dependencies σ S (l + 1) c).toOption

theorem steady_of_active {roots : List TypeId}
    (h : σ.expansionDepth = none ∨ ∀ equations, σ.effectRows ≠ some (.equations equations)) :
    Steady S σ roots := by
  intro a _ b _ k l c _ _
  rw [dependencies_active h (k + 1) (l + 1)]

theorem toOption_eq_some {α : Type} {x : Except TypeSubstitutionError α} {a : α} :
    x.toOption = some a ↔ x = .ok a := by
  cases x with
  | error error => simp [Except.toOption]
  | ok b => simp [Except.toOption]

/-- One of the depths at which the calls come to a type. -/
noncomputable def seenAt (S : TypeStore) (σ : SubstitutionInput) (roots : List TypeId)
    (c : TypeId) : ℕ :=
  Classical.epsilon fun k => ∃ a ∈ roots, ReachedAt S σ a k c

/-- What a type depends on in the run. -/
noncomputable def needsIn (S : TypeStore) (σ : SubstitutionInput) (roots : List TypeId)
    (c : TypeId) : Option (List TypeId) :=
  (dependencies σ S (seenAt S σ roots c + 1) c).toOption

def tableOf (as : List TypeId) (m : TypeId → TypeId) : Map TypeId TypeId :=
  as.foldr (fun b table => table.insert b (m b)) ∅

/-- What a type is assembled to from the results of what it depends on. -/
noncomputable def builtIn (sub : SubstitutionInput → TypeId → EngineM TypeStore TypeId)
    (S : TypeStore) (σ : SubstitutionInput) (roots : List TypeId) (c : TypeId)
    (m : TypeId → TypeId) : Option TypeId :=
  (assemble .existing sub σ c ⟨S, Finset.range (seenAt S σ roots c + 1),
    tableOf ((needsIn S σ roots c).getD []) m, ∅⟩).bind fun p => p.1.toOption

variable {as : List TypeId}

theorem get_tableOf {m : TypeId → TypeId} {b : TypeId} (hb : b ∈ as) :
    (tableOf as m).get b = some (m b) := by
  induction as with
  | nil => cases hb
  | cons a as ih =>
    change ((tableOf as m).insert a (m a)).get b = _
    rw [Map.get_insert]
    split_ifs with heq
    · rw [heq]
    · exact ih ((List.mem_cons.mp hb).resolve_left heq)

theorem tableOf_congr {m m' : TypeId → TypeId} (h : ∀ b ∈ as, m b = m' b) :
    tableOf as m = tableOf as m' := by
  induction as with
  | nil => rfl
  | cons a as ih =>
    obtain ⟨ha, has⟩ := List.forall_mem_cons.mp h
    change (tableOf as m).insert a (m a) = (tableOf as m').insert a (m' a)
    rw [ih has, ha]

theorem builtIn_buildsFrom (sub : SubstitutionInput → TypeId → EngineM TypeStore TypeId)
    (S : TypeStore) (σ : SubstitutionInput) (roots : List TypeId) :
    BuildsFrom (needsIn S σ roots) (builtIn sub S σ roots) := by
  intro c as m m' hneeds h
  unfold builtIn
  rw [hneeds, Option.getD_some, tableOf_congr h]

variable {engine : Engine TypeStore}

section
variable {sub : SubstitutionInput → TypeId → EngineM TypeStore TypeId} {roots : List TypeId}
  {a c : TypeId} {k : ℕ}

theorem seenAt_spec (ha : a ∈ roots) (h : ReachedAt S σ a k c) :
    ∃ b ∈ roots, ReachedAt S σ b (seenAt S σ roots c) c :=
  Classical.epsilon_spec (p := fun k => ∃ a ∈ roots, ReachedAt S σ a k c) ⟨k, a, ha, h⟩

theorem needsIn_eq (hsteady : Steady S σ roots) (ha : a ∈ roots) (h : ReachedAt S σ a k c) :
    (dependencies σ S (k + 1) c).toOption = needsIn S σ roots c := by
  obtain ⟨b, hb, hseen⟩ := seenAt_spec ha h
  exact hsteady a ha b hb k _ c h hseen

theorem reachedAt_of_level (hsteady : Steady S σ roots) (ha : a ∈ roots)
    (h : Level (needed (needsIn S σ roots)) [a] k c) : ReachedAt S σ a k c := by
  induction h with
  | root hroot =>
    cases List.mem_singleton.mp hroot
    exact .root
  | @step k b c _ hc ih =>
    have hneeds := needsIn_eq hsteady ha ih
    unfold needed at hc
    cases hdeps : dependencies σ S (k + 1) b with
    | error error =>
      rw [← hneeds, hdeps] at hc
      cases hc
    | ok as =>
      rw [← hneeds, hdeps] at hc
      exact .step ih hdeps hc

/-- The assembly of a type the run has come to, from an engine whose table holds what it needs. -/
theorem assemble_builtIn (hsteady : Steady S σ roots)
    (hsub : ∀ (engine : Engine TypeStore) b r, engine.memo.get b = some r →
      Returns (sub σ b) engine r) (hends : σ.Bare ∨ ArgumentsEnd S sub σ) (ha : a ∈ roots)
    (h : ReachedAt S σ a k c) {m : TypeId → TypeId} (htarget : engine.target = S)
    (hcard : engine.active.card = k + 1) (hdeps : dependencies σ S (k + 1) c = .ok as)
    (hmemo : ∀ b ∈ as, engine.memo.get b = some (m b)) :
    ∃ result, assemble .existing sub σ c engine = some (result, engine) ∧
      result.toOption = builtIn sub S σ roots c m := by
  have hneeds : needsIn S σ roots c = some as := by
    rw [← needsIn_eq hsteady ha h, hdeps]
    rfl
  have hdeps' := toOption_eq_some.mp hneeds
  have hagree : Agree S as engine ⟨S, Finset.range (seenAt S σ roots c + 1),
      tableOf as m, ∅⟩ := ⟨htarget, rfl, fun b hb => ⟨m b, hmemo b hb, get_tableOf hb⟩⟩
  obtain ⟨result, hresult, hresult'⟩ := assemble_same hagree hsub hends (a := c)
    (by rw [hcard]; exact hdeps) (by rw [Finset.card_range]; exact hdeps')
  refine ⟨result, hresult, ?_⟩
  unfold builtIn
  rw [hneeds, Option.getD_some, hresult', Option.bind_some]

end

section
variable (sub : SubstitutionInput → TypeId → EngineM TypeStore TypeId) (S : TypeStore)
  (σ : SubstitutionInput) (roots : List TypeId)

/-- The result of a type, at a height within the limit, whatever is asked before. -/
abbrev Gives : TypeId → TypeId → ℕ → Prop :=
  Derives (needsIn S σ roots) (builtIn sub S σ roots) σ.expansionDepth

/-- An engine over `S` whose table holds results only, each with its height. -/
structure Tabled (engine : Engine TypeStore) : Prop where
  target : engine.target = S
  memo : ∀ c r, engine.memo.get c = some r → ∃ h, Gives sub S σ roots c r h ∧
    ∀ limit ∈ σ.expansionDepth, engine.memoDepths.get c = some h

/-- What holds between two turns of a walk. -/
structure Turn (root : TypeId) (engine : Engine TypeStore) (stack : List (TypeId × Bool))
    (entered : List TypeId) : Prop where
  stack : StackInv (needed (needsIn S σ roots)) root engine.active
    (fun c => (engine.memo.get c).isSome) stack
  tabled : Tabled sub S σ roots engine
  entered : ∀ c ∈ engine.active, c ∈ entered
  answered : ∀ c ∈ engine.active, (needsIn S σ roots c).isSome

/-- How a walk ends: without an error, if the root has a result. -/
structure Ended (root : TypeId) (result : Except TypeSubstitutionError Unit)
    (engine : Engine TypeStore) (entered : List TypeId) : Prop where
  tabled : Tabled sub S σ roots engine
  entered : ∀ c ∈ engine.active, c ∈ entered
  done : result = .ok () → (engine.memo.get root).isSome
  ok : ∀ r h, Gives sub S σ roots root r h → result = .ok ()

end

section
variable {sub : SubstitutionInput → TypeId → EngineM TypeStore TypeId} {roots : List TypeId}
  {a c r root : TypeId} {h k : ℕ} {engine : Engine TypeStore} {rest stack : List (TypeId × Bool)}
  {entered : List TypeId} {finish : Bool}

theorem Tabled.unique {b r r' : TypeId} {h h' : ℕ} (hd : Gives sub S σ roots b r h)
    (hd' : Gives sub S σ roots b r' h') : r = r' :=
  (hd.unique (builtIn_buildsFrom sub S σ roots) hd').1

theorem Tabled.insert (ht : Tabled sub S σ roots engine) (hr : Gives sub S σ roots c r h)
    (active : Finset TypeId) :
    Tabled sub S σ roots ⟨engine.target, active, engine.memo.insert c r,
      σ.expansionDepth.elim engine.memoDepths fun _ => engine.memoDepths.insert c h⟩ := by
  refine ⟨ht.target, fun b r' hb => ?_⟩
  dsimp only at hb ⊢
  rw [Map.get_insert] at hb
  split_ifs at hb with heq
  · cases hb
    subst heq
    refine ⟨h, hr, fun limit hl => ?_⟩
    rw [Option.mem_def.mp hl, Option.elim_some, Map.get_insert, if_pos rfl]
  · obtain ⟨hb', hgives, hdepth⟩ := ht.memo b r' hb
    refine ⟨hb', hgives, fun limit hl => ?_⟩
    rw [Option.mem_def.mp hl, Option.elim_some, Map.get_insert, if_neg heq]
    exact hdepth limit hl

theorem Tabled.note (ht : Tabled sub S σ roots engine) (hc : engine.memo.get c = none)
    (height : ℕ) :
    Tabled sub S σ roots ⟨engine.target, engine.active, engine.memo,
      σ.expansionDepth.elim engine.memoDepths fun _ => engine.memoDepths.insert c height⟩ := by
  refine ⟨ht.target, fun b r' hb => ?_⟩
  dsimp only at hb ⊢
  obtain ⟨hb', hgives, hdepth⟩ := ht.memo b r' hb
  refine ⟨hb', hgives, fun limit hl => ?_⟩
  have hne : b ≠ c := by
    rintro rfl
    cases hc.symm.trans hb
  rw [Option.mem_def.mp hl, Option.elim_some, Map.get_insert, if_neg hne]
  exact hdepth limit hl

/-- The depth of a type whose needs are in the table. -/
theorem recordDepth_eq {d : TypeId → ℕ} (htarget : engine.target = S)
    (hdeps : dependencies σ S engine.active.card c = .ok as)
    (hdepth : ∀ b ∈ as, ∀ limit ∈ σ.expansionDepth, engine.memoDepths.get b = some (d b)) :
    recordDepth .existing σ engine c =
      (σ.expansionDepth.filter (· < heightOver as d)).elim
        (.ok ⟨engine.target, engine.active, engine.memo, σ.expansionDepth.elim engine.memoDepths
          fun _ => engine.memoDepths.insert c (heightOver as d)⟩)
        fun limit => .error (.expansionDepth limit) := by
  unfold recordDepth
  cases hlimit : σ.expansionDepth with
  | none => rfl
  | some limit =>
    have hfilter : as.filterMap engine.memoDepths.get = as.map d := by
      rw [← List.filterMap_eq_map]
      refine List.filterMap_congr fun b hb => ?_
      exact hdepth b hb limit hlimit
    have hinput : dependencies σ (SubstitutionTarget.existing.inputStore engine.target)
        engine.active.card c = .ok as := by
      rw [htarget]
      exact hdeps
    dsimp only
    rw [hinput]
    simp only [bind, Except.bind, hfilter]
    unfold heightOver
    by_cases hlt : limit < 1 + (as.map d).foldl max 0
    · rw [if_pos hlt, Option.filter_some, if_pos (by simpa using hlt)]
      rfl
    · rw [if_neg hlt, Option.filter_some, if_neg (by simpa using hlt)]
      rfl

namespace Turn

section
variable (ht : Turn sub S σ roots root engine ((c, finish) :: rest) entered)
include ht

theorem fails
    (hno : ∀ r h, ¬ Gives sub S σ roots c r h) (r : TypeId) (h : ℕ) :
    ¬ Gives sub S σ roots root r h := by
  intro hr
  obtain ⟨r', h', hc, -⟩ := hr.of_level ht.stack.paths.1
  exact hno r' h' hc

theorem error
    (hno : ∀ r h, ¬ Gives sub S σ roots c r h) {error : TypeSubstitutionError}
    {after : Engine TypeStore} {entered' : List TypeId} (htabled : Tabled sub S σ roots after)
    (hentered : ∀ b ∈ after.active, b ∈ entered') :
    Ended sub S σ roots root (.error error) after entered' where
  tabled := htabled
  entered := hentered
  done hok := by cases hok
  ok r h hr := absurd hr (ht.fails hno r h)

theorem skip (hm : (engine.memo.get c).isSome) : Turn sub S σ roots root engine rest entered :=
  ⟨ht.stack.skip hm, ht.tabled, ht.entered, ht.answered⟩

end

/-- The results that a type to be finished is built from. -/
theorem supplies (hsteady : Steady S σ roots) (ha : root ∈ roots)
    (ht : Turn sub S σ roots root engine ((c, true) :: rest) entered) :
    ∃ (k : ℕ) (as : List TypeId) (m : TypeId → TypeId) (d : TypeId → ℕ),
      engine.active.card = k + 1 ∧ ReachedAt S σ root k c ∧
      dependencies σ S (k + 1) c = .ok as ∧ needsIn S σ roots c = some as ∧
      ∀ b ∈ as, engine.memo.get b = some (m b) ∧ Gives sub S σ roots b (m b) (d b) ∧
        ∀ limit ∈ σ.expansionDepth, engine.memoDepths.get b = some (d b) := by
  have hactive : c ∈ engine.active := (ht.stack.entered c).mpr List.mem_cons_self
  have hreached := reachedAt_of_level hsteady ha ht.stack.paths.1
  obtain ⟨as, hneeds⟩ := Option.isSome_iff_exists.mp (ht.answered c hactive)
  have hdeps : dependencies σ S ((flagged rest).length + 1) c = .ok as := by
    rw [← toOption_eq_some, needsIn_eq hsteady ha hreached, hneeds]
  have hknown : ∀ b ∈ as, ∃ m d, engine.memo.get b = some m ∧ Gives sub S σ roots b m d ∧
      ∀ limit ∈ σ.expansionDepth, engine.memoDepths.get b = some d := by
    intro b hb
    have hmem : b ∈ needed (needsIn S σ roots) c := by
      rw [needed, hneeds]
      exact hb
    have hsome := (ht.stack.supplied.1 rfl b hmem).resolve_right List.not_mem_nil
    obtain ⟨m, hm⟩ := Option.isSome_iff_exists.mp hsome
    obtain ⟨d, hgives, hdepth⟩ := ht.tabled.memo b m hm
    exact ⟨m, d, hm, hgives, hdepth⟩
  choose! m d hall using hknown
  have hcard : engine.active.card = (flagged rest).length + 1 := ht.stack.card
  exact ⟨_, as, m, d, hcard, hreached, hdeps, hneeds, hall⟩

end Turn

/-- A type is finished, or it has no result. -/
theorem walk_finish (hsteady : Steady S σ roots) (ha : root ∈ roots)
    (hsub : ∀ (engine : Engine TypeStore) b r, engine.memo.get b = some r →
      Returns (sub σ b) engine r) (hends : σ.Bare ∨ ArgumentsEnd S sub σ) (n : ℕ)
    (ht : Turn sub S σ roots root engine ((c, true) :: rest) entered)
    (hm : engine.memo.get c = none) :
    (∃ after : Engine TypeStore,
      walk .existing sub σ (n + 1) engine ((c, true) :: rest) entered =
        walk .existing sub σ n after rest entered ∧
      Turn sub S σ roots root after rest entered ∧ after.active = engine.active.erase c ∧
      ∀ b, (after.memo.get b).isSome ↔ b = c ∨ (engine.memo.get b).isSome) ∨
    ∃ error after, walk .existing sub σ (n + 1) engine ((c, true) :: rest) entered =
        some (.error error, after, entered) ∧
      Ended sub S σ roots root (.error error) after entered := by
  obtain ⟨k, as, m, d, hcard, hreached, hdeps, hneeds, hall⟩ := ht.supplies hsteady ha
  have hrecord := recordDepth_eq (σ := σ) (d := d) ht.tabled.target (by rw [hcard]; exact hdeps)
    fun b hb => (hall b hb).2.2
  have hgives : ∀ r h, Gives sub S σ roots c r h ↔ heightOver as d = h ∧
      (∀ l ∈ σ.expansionDepth, heightOver as d ≤ l) ∧ builtIn sub S σ roots c m = some r :=
    fun r h => Derives.node_iff (builtIn_buildsFrom sub S σ roots) hneeds
      fun b hb => (hall b hb).2.1
  have hnone : ¬ (engine.memo.get c).isSome = true := by simp [hm]
  rw [walk, if_neg hnone, if_pos rfl, hrecord]
  cases hlimit : σ.expansionDepth.filter (· < heightOver as d) with
  | some limit =>
    right
    obtain ⟨hl, hlt⟩ := Option.filter_eq_some_iff.mp hlimit
    refine ⟨_, _, rfl, ht.error (fun r h hr => ?_) ht.tabled ht.entered⟩
    have hle := ((hgives r h).mp hr).2.1 limit hl
    have hlt : limit < heightOver as d := by simpa using hlt
    omega
  | none =>
    have hwithin : ∀ l ∈ σ.expansionDepth, heightOver as d ≤ l := by
      intro l hl
      have hnot := Option.filter_eq_none_iff.mp hlimit l hl
      simpa using hnot
    rw [Option.elim_none]
    dsimp only
    let noted : Engine TypeStore := ⟨engine.target, engine.active, engine.memo,
      σ.expansionDepth.elim engine.memoDepths fun _ => engine.memoDepths.insert c (heightOver as d)⟩
    have htarget : noted.target = S := ht.tabled.target
    obtain ⟨result, hassemble, hbuilt⟩ := assemble_builtIn hsteady hsub hends ha hreached htarget
      hcard hdeps fun b hb => (hall b hb).1
    rw [hassemble]
    cases result with
    | error error =>
      right
      refine ⟨_, _, rfl, ht.error (fun r h hr => ?_) (ht.tabled.note hm _) ht.entered⟩
      rw [((hgives r h).mp hr).2.2] at hbuilt
      cases hbuilt
    | ok r =>
      left
      have hr : Gives sub S σ roots c r (heightOver as d) :=
        (hgives r _).mpr ⟨rfl, hwithin, hbuilt.symm⟩
      have hknown : ∀ b, ((engine.memo.insert c r).get b).isSome ↔
          b = c ∨ (engine.memo.get b).isSome := by
        intro b
        rw [Map.get_insert]
        by_cases heq : b = c
        · simp [heq]
        · simp [heq]
      refine ⟨_, rfl, ⟨ht.stack.finished hknown, ht.tabled.insert hr _, fun b hb => ?_,
        fun b hb => ?_⟩, rfl, hknown⟩
      · exact ht.entered b (Finset.mem_of_mem_erase hb)
      · exact ht.answered b (Finset.mem_of_mem_erase hb)

theorem walk_enter (hsteady : Steady S σ roots) (ha : root ∈ roots) (n : ℕ)
    (ht : Turn sub S σ roots root engine ((c, false) :: rest) entered)
    (hm : engine.memo.get c = none) :
    (c < S.len ∧ c ∉ engine.active ∧
      walk .existing sub σ (n + 1) engine ((c, false) :: rest) entered =
        walk .existing sub σ n { engine with active := insert c engine.active }
          ((needed (needsIn S σ roots) c).map (·, false) ++ (c, true) :: rest) (entered ++ [c]) ∧
      Turn sub S σ roots root { engine with active := insert c engine.active }
        ((needed (needsIn S σ roots) c).map (·, false) ++ (c, true) :: rest) (entered ++ [c])) ∨
    ∃ error after entered', walk .existing sub σ (n + 1) engine ((c, false) :: rest) entered =
        some (.error error, after, entered') ∧
      Ended sub S σ roots root (.error error) after entered' := by
  have hnone : ¬ (engine.memo.get c).isSome = true := by simp [hm]
  have hlevel := ht.stack.level
  rw [walk, if_neg hnone, if_neg Bool.false_ne_true]
  by_cases hactive : c ∈ engine.active
  · right
    rw [if_pos hactive]
    refine ⟨_, _, _, rfl, ht.error (fun r h hr => ?_) ht.tabled ht.entered⟩
    exact hr.acyclic (builtIn_buildsFrom sub S σ roots) (ht.stack.cycle hactive)
  rw [if_neg hactive]
  cases hlimit : σ.expansionDepth.filter fun limit => limit ≤ engine.active.card with
  | some limit =>
    right
    obtain ⟨hl, hle⟩ := Option.filter_eq_some_iff.mp hlimit
    have hle : limit ≤ engine.active.card := by simpa using hle
    refine ⟨_, _, _, rfl, ⟨ht.tabled, ht.entered, fun hok => (by cases hok), fun r h hr => ?_⟩⟩
    -- the path to the type is longer than the height of the root may be
    obtain ⟨r', h', hc, hheight⟩ := hr.of_level hlevel
    have hpos : 1 ≤ h' := by
      cases hc with
      | node m d _ _ _ _ => exact Nat.le_add_right 1 _
    have hwithin := hr.within hl
    omega
  | none =>
    dsimp only
    have hcard : (insert c engine.active).card = engine.active.card + 1 :=
      Finset.card_insert_of_notMem hactive
    have hreached := reachedAt_of_level hsteady ha hlevel
    have hneeds := needsIn_eq hsteady ha hreached
    have hentered : ∀ b ∈ insert c engine.active, b ∈ entered ++ [c] := by
      intro b hb
      rcases Finset.mem_insert.mp hb with rfl | hb
      · exact List.mem_append_right _ (List.mem_singleton_self b)
      · exact List.mem_append_left _ (ht.entered b hb)
    have htabled : Tabled sub S σ roots { engine with active := insert c engine.active } :=
      ⟨ht.tabled.target, ht.tabled.memo⟩
    have hinput : dependencies σ (SubstitutionTarget.existing.inputStore engine.target)
        (insert c engine.active).card c = dependencies σ S (engine.active.card + 1) c := by
      rw [hcard, ← ht.tabled.target]
      rfl
    rw [hinput]
    cases hdeps : dependencies σ S (engine.active.card + 1) c with
    | error error =>
      right
      refine ⟨_, _, _, rfl, ht.error (fun r h hr => ?_) htabled hentered⟩
      rw [hdeps] at hneeds
      cases hr with
      | node _ _ hneeds' _ _ _ => cases hneeds.trans hneeds'
    | ok as =>
      left
      rw [hdeps] at hneeds
      have has : needed (needsIn S σ roots) c = as := by
        rw [needed, ← hneeds]
        rfl
      have hlt : c < S.len := by
        cases dependencies_ok hdeps with
        | argument hget _ | follow hget _ _ | node hget _ _ => exact TypeStore.lt_len_of_get hget
      refine ⟨hlt, hactive, ?_, ht.stack.enter hnone hactive, htabled, hentered, fun b hb => ?_⟩
      · rw [has]
      · rcases Finset.mem_insert.mp hb with rfl | hb
        · rw [← hneeds]
          rfl
        · exact ht.answered b hb

theorem walk_history (hsteady : Steady S σ roots) (ha : root ∈ roots)
    (hsub : ∀ (engine : Engine TypeStore) b r, engine.memo.get b = some r →
      Returns (sub σ b) engine r) (hends : σ.Bare ∨ ArgumentsEnd S sub σ) {n : ℕ}
    (ht : Turn sub S σ roots root engine stack entered)
    (hn : stack.length + toPush (needed (needsIn S σ roots)) (Finset.range S.len) engine.active
      (fun c => (engine.memo.get c).isSome) < n) :
    ∃ result after entered',
      walk .existing sub σ n engine stack entered = some (result, after, entered') ∧
        Ended sub S σ roots root result after entered' := by
  induction n generalizing engine stack entered with
  | zero => omega
  | succ n ih =>
    obtain _ | ⟨⟨c, finish⟩, rest⟩ := stack
    · exact ⟨.ok (), engine, entered, rfl, ht.tabled, ht.entered, fun _ => ht.stack.done_of_nil,
        fun _ _ _ => rfl⟩
    rw [List.length_cons] at hn
    by_cases hm : (engine.memo.get c).isSome = true
    · rw [walk, if_pos hm]
      exact ih (ht.skip hm) (by omega)
    have hnone : engine.memo.get c = none := by simpa using hm
    cases finish with
    | true =>
      rcases walk_finish hsteady ha hsub hends n ht hnone with
        ⟨after, hwalk, hafter, hactive, hknown⟩ | ⟨error, after, hwalk, hended⟩
      · have hle := toPush_finish (needed (needsIn S σ roots)) (Finset.range S.len)
          engine.active hknown
        rw [← hactive] at hle
        rw [hwalk]
        exact ih hafter (by omega)
      · exact ⟨.error error, after, entered, hwalk, hended⟩
    | false =>
      rcases walk_enter hsteady ha n ht hnone with
        ⟨hlt, hactive, hwalk, hafter⟩ | ⟨error, after, entered', hwalk, hended⟩
      · have hdrop := toPush_enter (needed (needsIn S σ roots))
          (fun c => (engine.memo.get c).isSome) (Finset.mem_range.mpr hlt) hactive hm
        rw [hwalk]
        refine ih hafter ?_
        rw [List.length_append, List.length_map, List.length_cons]
        dsimp only
        omega
      · exact ⟨.error error, after, entered', hwalk, hended⟩

end

/-- A bound for the turns of one walk. -/
noncomputable def turnBound (S : TypeStore) (σ : SubstitutionInput) (roots : List TypeId) : ℕ :=
  2 + ∑ c ∈ Finset.range S.len, ((needed (needsIn S σ roots) c).length + 1)

theorem turnBound_eq (hrows : σ.effectRows = none) (roots : List TypeId) :
    turnBound S σ roots = turnBound S σ [] := by
  have hneeds : needsIn S σ roots = needsIn S σ [] := by
    funext c
    unfold needsIn
    rw [dependencies_active (Or.inr fun equations h => by rw [hrows] at h; cases h)]
  unfold turnBound
  rw [hneeds]

/-- A call returns the result that its type has, whatever was asked before. -/
theorem substitute_gives {roots : List TypeId} {a : TypeId} {n : ℕ} (hsteady : Steady S σ roots)
    (ha : a ∈ roots) (hends : σ.Bare ∨ ArgumentsEnd S (substitute .existing (n + 1)) σ)
    (hn : turnBound S σ roots ≤ n + 1) (ht : Tabled (substitute .existing (n + 1)) S σ roots engine)
    (hactive : engine.active = ∅) :
    ∃ result after, substitute .existing (n + 2) σ a engine = some (result, after) ∧
      Tabled (substitute .existing (n + 1)) S σ roots after ∧ after.active = ∅ ∧
      ∀ r, result = .ok r ↔ ∃ h, Gives (substitute .existing (n + 1)) S σ roots a r h := by
  cases hm : engine.memo.get a with
  | some r =>
    refine ⟨.ok r, engine, substitute_memo hm, ht, hactive, fun r' => ?_⟩
    obtain ⟨h, hgives, -⟩ := ht.memo a r hm
    rw [Except.ok.injEq]
    constructor
    · rintro rfl
      exact ⟨h, hgives⟩
    · rintro ⟨h', hgives'⟩
      exact Tabled.unique hgives hgives'
  | none =>
    have hstart : Turn (substitute .existing (n + 1)) S σ roots a engine [(a, false)] [] :=
      ⟨.start hactive, ht, by simp [hactive], by simp [hactive]⟩
    have hle : 2 + toPush (needed (needsIn S σ roots)) (Finset.range S.len) engine.active
        (fun c => (engine.memo.get c).isSome) ≤ turnBound S σ roots :=
      Nat.add_le_add_left (toPush_le _ _ _) 2
    obtain ⟨result, after, entered, hwalk, hended⟩ := walk_history hsteady ha
      (fun _ _ _ hb => substitute_memo hb) hends hstart (n := n + 1)
      (by rw [List.length_singleton]; omega)
    have hempty : after.active \ entered.toFinset = ∅ :=
      Finset.sdiff_eq_empty_iff_subset.mpr fun b hb => List.mem_toFinset.mpr (hended.entered b hb)
    refine ⟨_, _, substitute_walk hm hwalk, ⟨hended.tabled.target, hended.tabled.memo⟩, hempty,
      fun r => ?_⟩
    cases result with
    | error error =>
      refine iff_of_false nofun fun ⟨h, hr⟩ => ?_
      cases hended.ok r h hr
    | ok _ =>
      obtain ⟨r', hr'⟩ := Option.isSome_iff_exists.mp (hended.done rfl)
      obtain ⟨h, hgives, -⟩ := hended.tabled.memo a r' hr'
      simp only [Except.bind, Engine.memoized, hr', Except.ok.injEq]
      constructor
      · rintro rfl
        exact ⟨h, hgives⟩
      · rintro ⟨h', hgives'⟩
        exact Tabled.unique hgives hgives'

theorem argumentsEnd {n : ℕ} (hn : turnBound S σ.onlyVariables [] ≤ n + 1) :
    ArgumentsEnd S (substitute .existing (n + 2)) σ := by
  intro b
  have hrows : σ.onlyVariables.effectRows = none := rfl
  have hsteady : Steady S σ.onlyVariables [b] :=
    steady_of_active (Or.inr fun equations h => by rw [hrows] at h; cases h)
  have hfresh : Tabled (substitute .existing (n + 1)) S σ.onlyVariables [b] (.fresh S) :=
    ⟨rfl, fun c r h => by cases h⟩
  obtain ⟨result, after, hcall, ht, -, -⟩ := substitute_gives hsteady (List.mem_singleton_self b)
    (Or.inl σ.onlyVariables_bare) (by rw [turnBound_eq hrows]; exact hn) hfresh rfl
  exact ⟨result, after, hcall, ht.target⟩

/-- Calls one after the other on one engine, which goes on after an error. -/
def substituteAll {T : Type} (target : SubstitutionTarget T) (n : ℕ) (σ : SubstitutionInput) :
    List TypeId → Engine T → Option (Engine T)
  | [], engine => some engine
  | a :: calls, engine =>
    (substitute target n σ a engine).bind fun p => substituteAll target n σ calls p.2

theorem substituteAll_tabled {roots calls : List TypeId} {n : ℕ} (hsteady : Steady S σ roots)
    (hcalls : calls ⊆ roots) (hends : σ.Bare ∨ ArgumentsEnd S (substitute .existing (n + 1)) σ)
    (hn : turnBound S σ roots ≤ n + 1) (ht : Tabled (substitute .existing (n + 1)) S σ roots engine)
    (hactive : engine.active = ∅) :
    ∃ after, substituteAll .existing (n + 2) σ calls engine = some after ∧
      Tabled (substitute .existing (n + 1)) S σ roots after ∧ after.active = ∅ := by
  induction calls generalizing engine with
  | nil => exact ⟨engine, rfl, ht, hactive⟩
  | cons a calls ih =>
    obtain ⟨ha, hcalls⟩ := List.cons_subset.mp hcalls
    obtain ⟨result, middle, hcall, hmiddle, hempty, -⟩ :=
      substitute_gives hsteady ha hends hn ht hactive
    unfold substituteAll
    rw [hcall]
    exact ih hcalls hmiddle hempty

/-- Where all calls come to steady depths only, a call after others on the same engine returns what
a fresh engine returns. -/
theorem substitute_after_calls (S : TypeStore) (σ : SubstitutionInput) (calls : List TypeId)
    (a : TypeId) (hsteady : Steady S σ (a :: calls)) :
    ∃ bound, ∀ n, bound ≤ n → ∃ used result after result' after',
      substituteAll .existing n σ calls (.fresh S) = some used ∧
      substitute .existing n σ a used = some (result, after) ∧
      substitute .existing n σ a (.fresh S) = some (result', after') ∧
      ∀ r, result = .ok r ↔ result' = .ok r := by
  refine ⟨max (turnBound S σ (a :: calls)) (turnBound S σ.onlyVariables []) + 3, fun n hn => ?_⟩
  obtain ⟨n, rfl⟩ : ∃ m, n = m + 3 := ⟨n - 3, by omega⟩
  have hends : ArgumentsEnd S (substitute .existing (n + 2)) σ := argumentsEnd (by omega)
  have hbound : turnBound S σ (a :: calls) ≤ n + 1 + 1 := by omega
  have hfresh : Tabled (substitute .existing (n + 2)) S σ (a :: calls) (.fresh S) :=
    ⟨rfl, fun c r h => by cases h⟩
  have hmem : a ∈ a :: calls := List.mem_cons_self
  obtain ⟨used, hused, ht, hactive⟩ := substituteAll_tabled hsteady (List.subset_cons_self a calls)
    (Or.inr hends) hbound hfresh rfl
  obtain ⟨result, after, hcall, -, -, hresult⟩ :=
    substitute_gives hsteady hmem (Or.inr hends) hbound ht hactive
  obtain ⟨result', after', hcall', -, -, hresult'⟩ :=
    substitute_gives hsteady hmem (Or.inr hends) hbound hfresh rfl
  refine ⟨used, result, after, result', after', hused, hcall, hcall', fun r => ?_⟩
  rw [hresult, hresult']

/-- Functions with open rows: `1` is in the list `2`, and `3` in the list `4`. -/
private def rowStore : TypeStore := { TypeStore.new with
  types := [.primitive .unit, .function ⟨[], 0, some ⟨[], some "a"⟩⟩, .list 1,
    .function ⟨[], 0, some ⟨[], some "c"⟩⟩, .list 3] }

private def rowInput (limit : Option ℕ) : SubstitutionInput :=
  ⟨none, none, none, none, none,
    some (.equations (.ofList [("a", ⟨[], some "b"⟩), ("b", ⟨[], some "c"⟩)])), limit⟩

/-- The row of `1` is beyond the limit at the top already, and the list `4` needs no equation. -/
private theorem rowInput_steady : Steady rowStore (rowInput (some 1)) [4, 1] := by
  have hreached : ∀ a ∈ [4, 1], ∀ k c, ReachedAt rowStore (rowInput (some 1)) a k c →
      c = 1 ∧ k = 0 ∨ c = 4 ∨ c = 3 ∨ c = 0 := by
    intro a ha k c h
    induction h with
    | root =>
      simp only [List.mem_cons, List.not_mem_nil, or_false] at ha
      rcases ha with rfl | rfl <;> simp
    | step _ hb hc ih =>
      rcases ih with ⟨rfl, rfl⟩ | rfl | rfl | rfl
      · cases hb
      · cases hb
        simp [List.mem_singleton.mp hc]
      · cases hb
        simp [List.mem_singleton.mp hc]
      · cases hb
        cases hc
  intro a ha b hb k l c hk hl
  rcases hreached a ha k c hk with ⟨rfl, rfl⟩ | rfl | rfl | rfl
  · rcases hreached b hb l 1 hl with ⟨-, rfl⟩ | h | h | h
    · rfl
    all_goals cases h
  all_goals rfl

theorem substitute_after_calls_steady : ∃ bound, ∀ n, bound ≤ n →
    ∃ error failed used result after result' after',
      substitute .existing n (rowInput (some 1)) 1 (.fresh rowStore) = some (.error error, failed) ∧
      substituteAll .existing n (rowInput (some 1)) [1] (.fresh rowStore) = some used ∧
      substitute .existing n (rowInput (some 1)) 4 used = some (result, after) ∧
      substitute .existing n (rowInput (some 1)) 4 (.fresh rowStore) = some (result', after') ∧
      ∀ r, result = .ok r ↔ result' = .ok r := by
  obtain ⟨bound, h⟩ := substitute_after_calls rowStore (rowInput (some 1)) [1] 4 rowInput_steady
  refine ⟨bound + 12, fun n hn => ?_⟩
  obtain ⟨used, result, after, result', after', hused, hcall, hfresh, hiff⟩ := h n (by omega)
  obtain ⟨m, rfl⟩ := Nat.exists_eq_add_of_le' ((Nat.le_add_left 12 bound).trans hn)
  exact ⟨_, _, used, result, after, result', after', rfl, hused, hcall, hfresh, hiff⟩

/-- The engine after a call for `1`. -/
private def usedEngine : Engine TypeStore :=
  ⟨rowStore, ∅, .ofList [(0, 0), (1, 3)], .ofList [(0, 1), (1, 2)]⟩

/-- The row of `1` is within the limit at the top, and beyond it inside of the list. A fresh engine
fails for the list; one that was asked for `1` before does not. -/
theorem substitute_after_calls_limited : ∃ enough : ℕ, ∀ n ≥ enough,
    ∃ used after after',
      substituteAll .existing n (rowInput (some 3)) [1] (.fresh rowStore) = some used ∧
      substitute .existing n (rowInput (some 3)) 2 used = some (.ok 4, after) ∧
      substitute .existing n (rowInput (some 3)) 2 (.fresh rowStore) =
        some (.error (.expansionDepth 3), after') := by
  refine ⟨12, fun n hn => ?_⟩
  obtain ⟨m, rfl⟩ := Nat.exists_eq_add_of_le' hn
  have hcall : substitute .existing (m + 12) (rowInput (some 3)) 1 (.fresh rowStore) =
      some (.ok 3, usedEngine) := rfl
  refine ⟨usedEngine, _, _, ?_, rfl, rfl⟩
  rw [substituteAll, hcall]
  rfl

end EtasFrontend.Types
