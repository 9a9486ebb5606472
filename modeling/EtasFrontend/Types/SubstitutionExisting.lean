import EtasFrontend.Types.SubstitutionWalk

/-! Substitution over a store that is only read. What it returns depends on the replacements only,
not on what the tables of the engine hold. -/
namespace EtasFrontend.Types
open Lib Relation

variable {S : TypeStore} {σ : SubstitutionInput}

/-- No solver variables, no rows and no limit of the depth. -/
structure SubstitutionInput.Plain (σ : SubstitutionInput) : Prop where
  vars : σ.vars = none
  effectRows : σ.effectRows = none
  expansionDepth : σ.expansionDepth = none

/-- Where a rebuilt node is found. -/
def TypeStore.placed (S : TypeStore) (a : TypeId) (ty specialized : Ty) :
    Except TypeSubstitutionError TypeId :=
  if ty = specialized then .ok a else (SubstitutionTarget.existing.place S specialized).1

/-- `r` holds the type `a` with its replacements made, and all its parts are in the store. -/
inductive Placed (S : TypeStore) (σ : SubstitutionInput) : TypeId → TypeId → Prop
  | argument {a r : TypeId} {name : NamedTypeRef} (h : S.get a = some (.named name))
      (hr : σ.target S a (.named name) = some r) (hget : ∃ t, S.get r = some t) : Placed S σ a r
  | follow {a b r : TypeId} {ty : Ty} (h : S.get a = some ty) (hn : ∀ name, ty ≠ .named name)
      (hr : σ.target S a ty = some b) (hb : Placed S σ b r) : Placed S σ a r
  | node {a r : TypeId} {ty : Ty} (m : TypeId → TypeId) (h : S.get a = some ty)
      (hr : σ.target S a ty = none) (hm : ∀ b ∈ ty.refs, Placed S σ b (m b))
      (hplace : S.placed a ty (ty.mapParts id m) = .ok r) : Placed S σ a r

variable {a r : TypeId}

namespace Placed

theorem argument_iff {a r r' : TypeId} {name : NamedTypeRef} (h : S.get a = some (.named name))
    (hr : σ.target S a (.named name) = some r) :
    Placed S σ a r' ↔ r = r' ∧ ∃ t, S.get r = some t := by
  constructor
  · intro hp
    cases hp with
    | argument h' hr' hget =>
      cases h.symm.trans h'
      cases hr.symm.trans hr'
      exact ⟨rfl, hget⟩
    | follow h' hn _ _ => exact (hn _ (Option.some.inj (h'.symm.trans h))).elim
    | node _ h' hr' _ _ =>
      cases h.symm.trans h'
      cases hr.symm.trans hr'
  · rintro ⟨rfl, hget⟩
    exact .argument h hr hget

theorem follow_iff {a b r : TypeId} {ty : Ty} (h : S.get a = some ty)
    (hn : ∀ name, ty ≠ .named name) (hr : σ.target S a ty = some b) :
    Placed S σ a r ↔ Placed S σ b r := by
  constructor
  · intro hp
    cases hp with
    | argument h' _ _ => exact (hn _ (Option.some.inj (h.symm.trans h'))).elim
    | follow h' _ hr' hb =>
      cases h.symm.trans h'
      cases hr.symm.trans hr'
      exact hb
    | node _ h' hr' _ _ =>
      cases h.symm.trans h'
      cases hr.symm.trans hr'
  · exact .follow h hn hr

theorem parts {ty : Ty} (hp : Placed S σ a r) (h : S.get a = some ty)
    (hr : σ.target S a ty = none) :
    ∃ m, (∀ b ∈ ty.refs, Placed S σ b (m b)) ∧ S.placed a ty (ty.mapParts id m) = .ok r := by
  cases hp with
  | argument h' hr' _ | follow h' _ hr' _ =>
    cases h.symm.trans h'
    cases hr.symm.trans hr'
  | node m h' _ hm hplace =>
    cases h.symm.trans h'
    exact ⟨m, hm, hplace⟩

theorem unique {a r r' : TypeId} (h : Placed S σ a r) (h' : Placed S σ a r') : r = r' := by
  induction h generalizing r' with
  | argument h hr _ => exact ((argument_iff h hr).mp h').1
  | follow h hn hr _ ih => exact ih ((follow_iff h hn hr).mp h')
  | node m h hr _ hplace ih =>
    obtain ⟨m', hm', hplace'⟩ := h'.parts h hr
    rw [Ty.mapParts_congr (fun _ _ => rfl) fun b hb => ih b hb (hm' b hb)] at hplace
    exact Except.ok.inj (hplace.symm.trans hplace')

theorem node_iff {ty : Ty} {m : TypeId → TypeId} (h : S.get a = some ty)
    (hr : σ.target S a ty = none) (hm : ∀ b ∈ ty.refs, Placed S σ b (m b)) :
    Placed S σ a r ↔ S.placed a ty (ty.mapParts id m) = .ok r := by
  constructor
  · intro hp
    obtain ⟨m', hm', hplace⟩ := hp.parts h hr
    rwa [Ty.mapParts_congr (fun _ _ => rfl) fun b hb => (hm b hb).unique (hm' b hb)]
  · exact .node m h hr hm

theorem get (h : Placed S σ a r) (hget : S.get a = none) : False := by
  cases h with
  | argument h _ _ | follow h _ _ _ | node _ h _ _ _ => cases h.symm.trans hget

theorem needs {a r b : TypeId} (h : Placed S σ a r) (hb : Needs σ S a b) :
    ∃ r', Placed S σ b r' := by
  unfold Needs at hb
  cases h with
  | argument h hr _ =>
    rw [needsList_argument h hr] at hb
    cases hb
  | follow h hn hr hp =>
    rw [follows_of_target h hn hr] at hb
    cases List.mem_singleton.mp hb
    exact ⟨_, hp⟩
  | node m h hr hm _ =>
    rw [needsList_of_none h hr] at hb
    exact ⟨_, hm b hb⟩

theorem reaches {a r b : TypeId} (h : Placed S σ a r) (hb : ReflTransGen (Needs σ S) a b) :
    ∃ r', Placed S σ b r' := by
  induction hb with
  | refl => exact ⟨r, h⟩
  | tail _ hstep ih =>
    obtain ⟨r', hr'⟩ := ih
    exact hr'.needs hstep

theorem acyclic (h : Placed S σ a r) : ¬ TransGen (Needs σ S) a a := by
  have hstep : ∀ {a : TypeId}, (∀ b, Needs σ S a b → ¬ TransGen (Needs σ S) b b) →
      ¬ TransGen (Needs σ S) a a := by
    intro a hb hcycle
    obtain ⟨b, hab, hba⟩ := TransGen.head'_iff.mp hcycle
    exact hb b hab (TransGen.tail' hba hab)
  induction h with
  | argument h hr _ =>
    refine hstep fun b hb => ?_
    unfold Needs at hb
    rw [needsList_argument h hr] at hb
    cases hb
  | follow h hn hr _ ih =>
    refine hstep fun b hb => ?_
    unfold Needs at hb
    rw [follows_of_target h hn hr] at hb
    cases List.mem_singleton.mp hb
    exact ih
  | node m h hr _ _ ih =>
    refine hstep fun b hb => ?_
    unfold Needs at hb
    rw [needsList_of_none h hr] at hb
    exact ih b hb

end Placed

theorem bind_ok {T α β : Type} {m : EngineM T α} {engine after : Engine T} {a : α}
    (hm : m engine = some (.ok a, after)) (f : α → EngineM T β) : (m >>= f) engine = f a after := by
  change (m engine).bind (fun p => ExceptT.bindCont f p.1 p.2) = _
  rw [hm]
  rfl

theorem bind_error {T α β : Type} {m : EngineM T α} {engine after : Engine T}
    {error : TypeSubstitutionError} (hm : m engine = some (.error error, after))
    (f : α → EngineM T β) : (m >>= f) engine = some (.error error, after) := by
  change (m engine).bind (fun p => ExceptT.bindCont f p.1 p.2) = _
  rw [hm]
  rfl

section
variable {sub : SubstitutionInput → TypeId → EngineM TypeStore TypeId} {engine : Engine TypeStore}
  {a : TypeId} {ty : Ty}

theorem engineRequire_existing (htarget : engine.target = S) :
    engineRequire .existing a engine = some (requireType S a, engine) := by
  rw [← htarget]
  rfl

theorem assemble_missing (htarget : engine.target = S) (h : S.get a = none) :
    assemble .existing sub σ a engine = some (.error (.missingType a), engine) := by
  have hrequire : engineRequire .existing a engine = some (.error (.missingType a), engine) := by
    rw [engineRequire_existing htarget, requireType, h]
  exact bind_error hrequire _

theorem engineMaterialize_existing (htarget : engine.target = S) (h : S.get a = some ty)
    (specialized : Ty) :
    engineMaterialize .existing a specialized engine =
      some (S.placed a ty specialized, engine) := by
  have hrequire : Returns (engineRequire .existing a) engine ty := by
    unfold Returns
    rw [engineRequire_existing htarget, requireType, h]
  unfold engineMaterialize TypeStore.placed
  rw [hrequire.bind_apply]
  by_cases hsame : ty = specialized
  · rw [if_pos hsame, if_pos hsame]
    rfl
  · rw [if_neg hsame, if_neg hsame]
    subst htarget
    dsimp only [SubstitutionTarget.existing]
    split <;> rfl

theorem substituteArgument_existing (hσ : σ.Plain) (htarget : engine.target = S) (r : TypeId) :
    substituteArgument .existing sub σ r engine =
      some ((requireType S r).map fun _ => r, engine) := by
  unfold substituteArgument
  rw [hσ.vars]
  rcases hget : S.get r with _ | t
  · have hrequire : engineRequire .existing r engine = some (.error (.missingType r), engine) := by
      rw [engineRequire_existing htarget, requireType, hget]
    rw [bind_error hrequire, requireType, hget]
    rfl
  · have hrequire : Returns (engineRequire .existing r) engine t := by
      unfold Returns
      rw [engineRequire_existing htarget, requireType, hget]
    rw [hrequire.bind_apply, requireType, hget]
    rfl

/-- A type whose needs are in the table: what its assembly returns is its result, if it has one. -/
theorem assemble_existing (hσ : σ.Plain) (htarget : engine.target = S)
    (hmemo : ∀ b r, engine.memo.get b = some r → Placed S σ b r)
    (hsub : ∀ b r, engine.memo.get b = some r → Returns (sub σ b) engine r)
    (h : S.get a = some ty) (hneeds : ∀ b, Needs σ S a b → ∃ r, engine.memo.get b = some r) :
    ∃ result, assemble .existing sub σ a engine = some (result, engine) ∧
      ∀ r, result = .ok r ↔ Placed S σ a r := by
  have hrequire : Returns (engineRequire .existing a) engine ty := by
    unfold Returns
    rw [engineRequire_existing htarget, requireType, h]
  have hassemble : assemble .existing sub σ a engine =
      (σ.target S a ty).elim (rebuild .existing sub σ a ty engine)
        fun replacement => replace .existing sub σ ty replacement engine := by
    unfold assemble
    rw [hrequire.bind_apply, ← htarget, SubstitutionTarget.existing]
    dsimp only
    cases σ.target engine.target a ty with
    | none => rfl
    | some replacement => rfl
  rw [hassemble]
  unfold Needs at hneeds
  cases hr : σ.target S a ty with
  | some b =>
    rw [Option.elim_some]
    by_cases hn : ∃ name, ty = .named name
    · obtain ⟨name, rfl⟩ := hn
      refine ⟨_, substituteArgument_existing hσ htarget b, fun r => ?_⟩
      rw [Placed.argument_iff h hr, requireType]
      rcases S.get b with _ | t <;> simp [Except.map]
    · rw [not_exists] at hn
      rw [follows_of_target h hn hr] at hneeds
      obtain ⟨r, hget⟩ := hneeds b (List.mem_singleton_self b)
      refine ⟨.ok r, ?_, fun r' => ?_⟩
      · have hcall := hsub b r hget
        cases ty with
        | named name => exact (hn name rfl).elim
        | _ => exact hcall
      · rw [Placed.follow_iff h hn hr, Except.ok.injEq]
        constructor
        · rintro rfl
          exact hmemo b r hget
        · exact (hmemo b r hget).unique
  | none =>
    rw [Option.elim_none]
    rw [needsList_of_none h hr] at hneeds
    choose! m hm using hneeds
    have hparts := assembleNode_returns .existing hσ.effectRows
      fun b hb => hsub b (m b) (hm b hb)
    have hnode : ∀ r, Placed S σ a r ↔ S.placed a ty (ty.mapParts id m) = .ok r :=
      fun r => Placed.node_iff h hr fun b hb => hmemo b (m b) (hm b hb)
    simp only [hnode]
    refine ⟨S.placed a ty (ty.mapParts id m), ?_, fun r => Iff.rfl⟩
    unfold rebuild
    rw [hparts.bind_apply]
    by_cases hleaf : ty.isLeaf = true
    · have hsame : ty = ty.mapParts id m := by
        cases ty with
        | resourceHandle r => cases hleaf
        | _ => first | rfl | cases hleaf
      rw [if_pos hleaf, TypeStore.placed, if_pos hsame]
      rfl
    · rw [if_neg hleaf]
      exact engineMaterialize_existing htarget h _

end

/-! The walk and whole calls. -/

/-- An engine over the store `S` whose table holds results only. -/
structure Sound (S : TypeStore) (σ : SubstitutionInput) (engine : Engine TypeStore) : Prop where
  target : engine.target = S
  memo : ∀ a r, engine.memo.get a = some r → Placed S σ a r

variable {engine : Engine TypeStore}

theorem Sound.insert (h : Sound S σ engine) (hr : Placed S σ a r) (active : Finset TypeId) :
    Sound S σ ⟨engine.target, active, engine.memo.insert a r, engine.memoDepths⟩ := by
  refine ⟨h.target, fun b r' hb => ?_⟩
  dsimp only at hb
  rw [Map.get_insert] at hb
  by_cases he : b = a
  · rw [if_pos he] at hb
    cases hb
    exact he ▸ hr
  · rw [if_neg he] at hb
    exact h.memo b r' hb

/-- How a walk ends: without an error, if the root has a result. -/
structure Walked (S : TypeStore) (σ : SubstitutionInput) (root : TypeId)
    (result : Except TypeSubstitutionError Unit) (engine : Engine TypeStore)
    (entered : List TypeId) : Prop where
  sound : Sound S σ engine
  entered : ∀ a ∈ engine.active, a ∈ entered
  done : result = .ok () → (engine.memo.get root).isSome
  ok : ∀ r, Placed S σ root r → result = .ok ()

theorem walk_existing (hσ : σ.Plain) {sub : SubstitutionInput → TypeId → EngineM TypeStore TypeId}
    (hsub : ∀ (engine : Engine TypeStore) b r, engine.memo.get b = some r →
      Returns (sub σ b) engine r) {root : TypeId} {n : ℕ} {stack : List (TypeId × Bool)}
    {entered : List TypeId} (hsound : Sound S σ engine) (h : Walking S σ root engine stack entered)
    (hn : stack.length + remaining S σ engine < n) :
    ∃ result after entered',
      walk .existing sub σ n engine stack entered = some (result, after, entered') ∧
        Walked S σ root result after entered' := by
  induction n generalizing engine stack entered with
  | zero => omega
  | succ n ih =>
    obtain _ | ⟨⟨current, finish⟩, rest⟩ := stack
    · exact ⟨.ok (), engine, entered, rfl, hsound, h.entered, fun _ => h.stack.done_of_nil,
        fun _ _ => rfl⟩
    rw [List.length_cons] at hn
    have hreach := h.stack.reach
    rw [walk]
    by_cases hm : (engine.memo.get current).isSome = true
    · rw [if_pos hm]
      exact ih hsound (h.skip hm) (by omega)
    rw [if_neg hm]
    have hnone : engine.memo.get current = none := by simpa using hm
    -- a type without a result is one that the root needs and that leaves the root without
    have hfail : ∀ (error : TypeSubstitutionError) (after : Engine TypeStore) (entered' : List TypeId),
        (∀ r, ¬ Placed S σ current r) → Sound S σ after → (∀ a ∈ after.active, a ∈ entered') →
          Walked S σ root (.error error) after entered' := by
      intro error after entered' hno hafter hentered
      refine ⟨hafter, hentered, nofun, fun r hr => ?_⟩
      obtain ⟨r', hr'⟩ := hr.reaches hreach
      exact (hno r' hr').elim
    cases finish with
    | true =>
      rw [if_pos rfl]
      have hneeds : ∀ b, Needs σ S current b → ∃ r, engine.memo.get b = some r := by
        intro b hb
        have hsome := (h.stack.supplied.1 rfl b hb).resolve_right List.not_mem_nil
        exact Option.isSome_iff_exists.mp hsome
      obtain ⟨result, hassemble, hresult⟩ : ∃ result,
          assemble .existing sub σ current engine = some (result, engine) ∧
            ∀ r, result = .ok r ↔ Placed S σ current r := by
        rcases hget : S.get current with _ | ty
        · refine ⟨_, assemble_missing hsound.target hget, fun r => ?_⟩
          exact iff_of_false nofun fun hr => (hr.get hget).elim
        · exact assemble_existing hσ hsound.target hsound.memo (hsub engine) hget hneeds
      simp only [recordDepth, hσ.expansionDepth, hassemble]
      cases result with
      | error error =>
        refine ⟨_, _, _, rfl, hfail error engine entered (fun r hr => ?_) hsound h.entered⟩
        cases (hresult r).mpr hr
      | ok r =>
        have hle : remaining S σ ⟨engine.target, engine.active.erase current,
            engine.memo.insert current r, engine.memoDepths⟩ ≤ remaining S σ engine :=
          remaining_finish engine r engine.target
        exact ih (hsound.insert ((hresult r).mp rfl) _) (h.finished r engine.target) (by omega)
    | false =>
      rw [if_neg Bool.false_ne_true]
      by_cases ha : current ∈ engine.active
      · rw [if_pos ha]
        have hcycle := h.stack.cycle ha
        exact ⟨_, _, _, rfl, hfail _ engine entered (fun r hr => hr.acyclic hcycle) hsound h.entered⟩
      rw [if_neg ha]
      simp only [hσ.expansionDepth, Option.filter_none]
      rcases hget : S.get current with _ | ty
      · have hdeps : ∀ active, dependencies σ (SubstitutionTarget.existing.inputStore engine.target)
            active current = .error (.missingType current) := by
          intro active
          rw [hsound.target]
          simp only [dependencies, requireType, SubstitutionTarget.existing, hget]
          rfl
        rw [hdeps]
        refine ⟨_, _, _, rfl, hfail _ _ _ (fun r hr => (hr.get hget).elim)
          ⟨hsound.target, hsound.memo⟩ fun a ha => ?_⟩
        rcases Finset.mem_insert.mp ha with rfl | ha
        · exact List.mem_append_right _ List.mem_cons_self
        · exact List.mem_append_left _ (h.entered a ha)
      · have hdeps : ∀ active, dependencies σ (SubstitutionTarget.existing.inputStore engine.target)
            active current = .ok (needsList σ S current) := by
          intro active
          rw [hsound.target]
          exact dependencies_eq hσ.effectRows S active hget
        rw [hdeps]
        have hdrop := remaining_enter (σ := σ) hget ha hnone
        have hsound' : Sound S σ { engine with active := insert current engine.active } :=
          { target := hsound.target, memo := hsound.memo }
        refine ih hsound' (h.enter hnone ha) ?_
        rw [List.length_append, List.length_map, List.length_cons]
        omega

/-- Between two calls nothing is entered. -/
structure Resting (S : TypeStore) (σ : SubstitutionInput) (engine : Engine TypeStore) : Prop where
  sound : Sound S σ engine
  active : engine.active = ∅

theorem Resting.fresh (S : TypeStore) (σ : SubstitutionInput) : Resting S σ (.fresh S) :=
  ⟨⟨rfl, nofun⟩, rfl⟩

theorem substitute_existing (hσ : σ.Plain) (h : Resting S σ engine) (a : TypeId) {n : ℕ}
    (hn : walkBound σ S + 2 ≤ n) :
    ∃ result after, substitute .existing n σ a engine = some (result, after) ∧
      Resting S σ after ∧ ∀ r, result = .ok r ↔ Placed S σ a r := by
  obtain ⟨n, rfl⟩ : ∃ m, n = m + 2 := ⟨n - 2, by omega⟩
  cases hm : engine.memo.get a with
  | some r =>
    refine ⟨.ok r, engine, substitute_memo hm, h, fun r' => ?_⟩
    rw [Except.ok.injEq]
    constructor
    · rintro rfl
      exact h.sound.memo a r hm
    · exact (h.sound.memo a r hm).unique
  | none =>
    have hsub : ∀ (engine : Engine TypeStore) b r, engine.memo.get b = some r →
        Returns (substitute .existing (n + 1) σ b) engine r :=
      fun _ _ _ hb => substitute_memo hb
    have hstart : Walking S σ a engine [(a, false)] [] := .start h.active
    have hbound : 1 + remaining S σ engine < n + 1 := remaining_lt engine (by omega)
    obtain ⟨result, after, entered, hwalk, hend⟩ := walk_existing hσ hsub h.sound hstart hbound
    have hactive : after.active \ entered.toFinset = ∅ :=
      Finset.sdiff_eq_empty_iff_subset.mpr fun b hb => List.mem_toFinset.mpr (hend.entered b hb)
    refine ⟨_, _, substitute_walk hm hwalk, ⟨⟨hend.sound.target, hend.sound.memo⟩, hactive⟩,
      fun r => ?_⟩
    cases result with
    | error error =>
      refine iff_of_false nofun fun hr => ?_
      cases hend.ok r hr
    | ok _ =>
      obtain ⟨r', hr'⟩ := Option.isSome_iff_exists.mp (hend.done rfl)
      have hplaced := hend.sound.memo a r' hr'
      simp only [Except.bind, Engine.memoized, hr', Except.ok.injEq]
      constructor
      · rintro rfl
        exact hplaced
      · exact hplaced.unique

/-- Calls one after the other on one engine. -/
theorem mapM_resting {α β : Type} {f : α → EngineM TypeStore β} {R : α → β → Prop} {l : List α}
    (hf : ∀ a ∈ l, ∀ engine, Resting S σ engine → ∃ result after, f a engine = some (result, after) ∧
      Resting S σ after ∧ ∀ b, result = .ok b ↔ R a b) (h : Resting S σ engine) :
    ∃ result after, l.mapM f engine = some (result, after) ∧ Resting S σ after ∧
      ∀ bs, result = .ok bs ↔ List.Forall₂ R l bs := by
  induction l generalizing engine with
  | nil =>
    refine ⟨.ok [], engine, rfl, h, fun bs => ?_⟩
    rw [List.forall₂_nil_left_iff, Except.ok.injEq, eq_comm]
  | cons a l ih =>
    rw [List.forall_mem_cons] at hf
    obtain ⟨first, middle, hfirst, hmiddle, hspec⟩ := hf.1 engine h
    rw [List.mapM_cons]
    cases first with
    | error error =>
      refine ⟨.error error, middle, bind_error hfirst _, hmiddle, fun bs => ?_⟩
      refine iff_of_false nofun fun hbs => ?_
      obtain ⟨b, _, hb, _, _⟩ := List.forall₂_cons_left_iff.mp hbs
      cases (hspec b).mpr hb
    | ok b =>
      obtain ⟨rest, after, hrest, hafter, hall⟩ := ih hf.2 hmiddle
      rw [bind_ok hfirst]
      cases rest with
      | error error =>
        refine ⟨.error error, after, bind_error hrest _, hafter, fun bs => ?_⟩
        refine iff_of_false nofun fun hbs => ?_
        obtain ⟨_, tail, _, htail, _⟩ := List.forall₂_cons_left_iff.mp hbs
        cases (hall tail).mpr htail
      | ok tail =>
        refine ⟨.ok (b :: tail), after, bind_ok hrest _, hafter, fun bs => ?_⟩
        rw [Except.ok.injEq, List.forall₂_cons_left_iff]
        constructor
        · rintro rfl
          exact ⟨b, tail, (hspec b).mp rfl, (hall tail).mp rfl, rfl⟩
        · rintro ⟨b', tail', hb', htail', rfl⟩
          cases (hspec b').mpr hb'
          cases (hall tail').mpr htail'
          rfl

theorem Placed.lt (h : Placed S σ a r) : r < S.len := by
  induction h with
  | argument _ _ hget =>
    obtain ⟨t, ht⟩ := hget
    exact TypeStore.lt_len_of_get ht
  | follow _ _ _ _ ih => exact ih
  | @node a r ty m h _ _ hplace _ =>
    unfold TypeStore.placed at hplace
    split_ifs at hplace with hsame
    · cases hplace
      exact TypeStore.lt_len_of_get h
    · dsimp only [SubstitutionTarget.existing] at hplace
      rcases hfind : S.allTypes.zipIdx.find? fun e => e.1 == ty.mapParts id m with _ | ⟨t, id⟩
      · rw [hfind] at hplace
        cases hplace
      · rw [hfind] at hplace
        cases hplace
        have hmem := List.mem_of_find?_eq_some hfind
        rw [List.mem_zipIdx_iff_getElem?, ← TypeStore.get_eq] at hmem
        exact TypeStore.lt_len_of_get hmem

/-- A bound for all inputs. -/
def TypeStore.existingBound (S : TypeStore) : ℕ :=
  4 + ∑ a ∈ Finset.range S.len, (((S.get a).elim 0 fun ty => ty.refs.length) + 2)

theorem walkBound_le (σ : SubstitutionInput) (S : TypeStore) :
    walkBound σ S + 2 ≤ S.existingBound := by
  have hle : ∀ a ∈ Finset.range S.len, (needsList σ S a).length + 1 ≤
      ((S.get a).elim 0 fun ty => ty.refs.length) + 2 := by
    intro a _
    unfold needsList
    rcases S.get a with _ | ty
    · simp
    · dsimp only [Option.elim]
      split
      · split <;> simp
      · omega
  have hsum := Finset.sum_le_sum hle
  unfold walkBound TypeStore.existingBound
  omega

/-! Inputs that replace the same types. -/

/-- The inputs agree on every type that substitution of `a` comes to. -/
def SameReplacements (S : TypeStore) (σ τ : SubstitutionInput) (a : TypeId) : Prop :=
  ∀ b ty, ReflTransGen (Needs σ S) a b → S.get b = some ty →
    σ.replacement S b ty = τ.replacement S b ty

variable {τ : SubstitutionInput}

theorem SameReplacements.needs {a b : TypeId} (h : SameReplacements S σ τ a) (hb : Needs σ S a b) :
    SameReplacements S σ τ b :=
  fun c ty hc hget => h c ty (hc.head hb) hget

theorem SameReplacements.target {a : TypeId} {ty : Ty} (h : SameReplacements S σ τ a)
    (hget : S.get a = some ty) :
    σ.target S a ty = τ.target S a ty := by
  unfold SubstitutionInput.target
  rw [h a ty .refl hget]

theorem Placed.congr (h : SameReplacements S σ τ a) (hp : Placed S σ a r) : Placed S τ a r := by
  induction hp with
  | argument hget hr hresult => exact .argument hget (h.target hget ▸ hr) hresult
  | @follow a b r ty hget hn hr _ ih =>
    have hb : Needs σ S a b := by
      unfold Needs
      rw [follows_of_target hget hn hr]
      exact List.mem_singleton_self b
    exact .follow hget hn (h.target hget ▸ hr) (ih (h.needs hb))
  | node m hget hr _ hplace ih =>
    refine .node m hget (h.target hget ▸ hr) (fun b hb => ih b hb (h.needs ?_)) hplace
    unfold Needs
    rw [needsList_of_none hget hr]
    exact hb

theorem SameReplacements.symm {a : TypeId} (h : SameReplacements S σ τ a) :
    SameReplacements S τ σ a := by
  have hneeds : ∀ b c, ReflTransGen (Needs σ S) a b → Needs τ S b c → Needs σ S b c := by
    intro b c hb hc
    unfold Needs needsList at hc ⊢
    rcases hget : S.get b with _ | ty
    · rw [hget] at hc
      cases hc
    · rw [hget] at hc
      have hsame : σ.target S b ty = τ.target S b ty := by
        unfold SubstitutionInput.target
        rw [h b ty hb hget]
      dsimp only at hc ⊢
      rwa [hsame]
  have hreach : ∀ b, ReflTransGen (Needs τ S) a b → ReflTransGen (Needs σ S) a b := by
    intro b hb
    induction hb with
    | refl => exact .refl
    | tail _ hstep ih => exact ih.tail (hneeds _ _ ih hstep)
  exact fun b ty hb hget => (h b ty (hreach b hb) hget).symm

theorem Placed.congr_iff (h : SameReplacements S σ τ a) : Placed S σ a r ↔ Placed S τ a r :=
  ⟨.congr h, .congr h.symm⟩

end EtasFrontend.Types
