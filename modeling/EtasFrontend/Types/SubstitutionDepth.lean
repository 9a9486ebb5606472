import EtasFrontend.Lib.Fallible
import EtasFrontend.Types.RowEquations
import EtasFrontend.Types.SubstitutionParallel

/-! The depth at which an engine comes to a type. It decides whether rows can be expanded within the
limit, and nothing else. -/
namespace EtasFrontend.Types
open Lib

variable {S : TypeStore} {σ : SubstitutionInput}

/-! Rows. -/

theorem expandEquations_unique {equations : Map String EffectRowRef} {limit : Option ℕ}
    {active active' n : ℕ} {visited : List String} {row r r' : EffectRowRef}
    (h : expandEquations equations limit active n visited row = .ok r)
    (h' : expandEquations equations limit active' n visited row = .ok r') : r = r' := by
  induction n generalizing visited row with
  | zero => exact Except.ok.inj (h.symm.trans h')
  | succ n ih =>
    unfold expandEquations at h h'
    cases htail : row.tail with
    | none =>
      rw [htail] at h h'
      exact Except.ok.inj (h.symm.trans h')
    | some tail =>
      rw [htail] at h h'
      dsimp only at h h'
      cases hget : equations.get tail with
      | none =>
        rw [hget] at h h'
        exact Except.ok.inj (h.symm.trans h')
      | some binding =>
        rw [hget] at h h'
        dsimp only at h h'
        split_ifs at h h' with hid hvis
        · exact Except.ok.inj (h.symm.trans h')
        · split at h
          · cases h
          · split at h'
            · cases h'
            · exact ih h h'

variable {row : EffectRowRef}

theorem SubstitutionInput.expandedRow_unique {active active' : ℕ} {r r' : ExpandedRow}
    (h : σ.expandedRow active row = .ok r) (h' : σ.expandedRow active' row = .ok r') : r = r' := by
  unfold SubstitutionInput.expandedRow at h h'
  cases hrows : σ.effectRows with
  | none =>
    rw [hrows] at h h'
    exact Except.ok.inj (h.symm.trans h')
  | some rows =>
    rw [hrows] at h h'
    cases rows with
    | arguments arguments => exact Except.ok.inj (h.symm.trans h')
    | equations equations =>
      dsimp only at h h'
      cases he : expandEquations equations σ.expansionDepth active (equations.toList.length + 1) []
          row with
      | error error =>
        rw [he] at h
        cases h
      | ok expanded =>
        cases he' : expandEquations equations σ.expansionDepth active'
            (equations.toList.length + 1) [] row with
        | error error =>
          rw [he'] at h'
          cases h'
        | ok expanded' =>
          rw [he] at h
          rw [he', ← expandEquations_unique he he'] at h'
          exact Except.ok.inj (h.symm.trans h')

theorem SubstitutionInput.expandedRow_active
    (h : σ.expansionDepth = none ∨ ∀ equations, σ.effectRows ≠ some (.equations equations))
    (active active' : ℕ) (row : EffectRowRef) :
    σ.expandedRow active row = σ.expandedRow active' row := by
  unfold SubstitutionInput.expandedRow
  cases hrows : σ.effectRows with
  | none => rfl
  | some rows =>
    cases rows with
    | arguments arguments => rfl
    | equations equations =>
      rcases h with h | h
      · dsimp only
        rw [h, expandEquations_active equations active active']
      · exact absurd hrows (h equations)

/-! What a type depends on. -/

/-- The members of a row that belong to the type itself and not to an argument. -/
def ExpandedRow.template (expanded : ExpandedRow) : List EffectRef :=
  match expanded.argumentStart with
  | some start => expanded.row.effects.take start
  | none => expanded.row.effects

variable {expanded : ExpandedRow}

theorem ExpandedRow.mem_template {effect : EffectRef} {index : ℕ}
    (h : (effect, index) ∈ expanded.row.effects.zipIdx)
    (ha : expanded.argumentStart.any (· ≤ index) = false) : effect ∈ expanded.template := by
  have hget := List.mem_zipIdx_iff_getElem?.mp h
  unfold ExpandedRow.template
  cases hstart : expanded.argumentStart with
  | none => exact List.mem_of_getElem? hget
  | some start =>
    have hlt : index < start := by simpa [hstart] using ha
    have htake : (expanded.row.effects.take start)[index]? = some effect := by
      rw [List.getElem?_take_of_lt hlt]
      exact hget
    exact List.mem_of_getElem? htake

variable {active : ℕ} {as : List TypeId}

theorem rowDependencies_ok (h : rowDependencies σ active row = .ok as) :
    ∃ expanded, σ.expandedRow active row = .ok expanded ∧
      as = expanded.template.flatMap EffectRef.refs := by
  unfold rowDependencies at h
  cases he : σ.expandedRow active row with
  | error error =>
    rw [he] at h
    cases h
  | ok expanded =>
    rw [he] at h
    exact ⟨expanded, rfl, (Except.ok.inj h).symm⟩

/-- `as` lists what the assembly of a node asks for. -/
structure Listed (σ : SubstitutionInput) (active : ℕ) (ty : Ty) (as : List TypeId) : Prop where
  own : ty.ownRefs ⊆ as
  rows : ∀ row ∈ ty.occursRows, ∃ expanded, σ.expandedRow active row = .ok expanded ∧
    expanded.template.flatMap EffectRef.refs ⊆ as

theorem nodeDependencies_listed {ty : Ty}
    (h : nodeDependencies σ active ty = .ok as) : Listed σ active ty as := by
  have hopt : ∀ {row : Option EffectRowRef} {as : List TypeId},
      optionRowDependencies σ active row = .ok as → ∀ r ∈ row.toList,
        ∃ expanded, σ.expandedRow active r = .ok expanded ∧
          expanded.template.flatMap EffectRef.refs ⊆ as := by
    intro row as h r hr
    cases row with
    | none => simp at hr
    | some row =>
      cases List.mem_singleton.mp hr
      obtain ⟨expanded, he, rfl⟩ := rowDependencies_ok h
      exact ⟨expanded, he, List.Subset.refl _⟩
  have hrow : ∀ {row : EffectRowRef} {as : List TypeId}, rowDependencies σ active row = .ok as →
      ∃ expanded, σ.expandedRow active row = .ok expanded ∧
        expanded.template.flatMap EffectRef.refs ⊆ as := by
    intro row as h
    obtain ⟨expanded, he, rfl⟩ := rowDependencies_ok h
    exact ⟨expanded, he, List.Subset.refl _⟩
  cases ty with
  | function flow =>
    simp only [nodeDependencies] at h
    obtain ⟨members, hmembers, h⟩ := bind_eq_ok.mp h
    cases h
    refine ⟨fun b hb => ?_, fun row hr => ?_⟩
    · rcases List.mem_append.mp hb with hb | hb
      · exact List.mem_append_left _ hb
      · cases List.mem_singleton.mp hb
        exact List.mem_append_right _ List.mem_cons_self
    · obtain ⟨expanded, he, hsub⟩ := hopt hmembers row hr
      refine ⟨expanded, he, fun b hb => ?_⟩
      exact List.mem_append_right _ (List.mem_cons_of_mem _ (hsub hb))
  | handler handler =>
    simp only [nodeDependencies] at h
    obtain ⟨handled, hhandled, h⟩ := bind_eq_ok.mp h
    obtain ⟨produced, hproduced, h⟩ := bind_eq_ok.mp h
    cases h
    have hfirst : ∃ expanded, σ.expandedRow active handler.handled = .ok expanded ∧
        expanded.template.flatMap EffectRef.refs ⊆ handled ++ produced ++ handler.result.toList := by
      obtain ⟨expanded, he, hsub⟩ := hrow hhandled
      refine ⟨expanded, he, fun b hb => ?_⟩
      exact List.mem_append_left _ (List.mem_append_left _ (hsub hb))
    refine ⟨fun b hb => List.mem_append_right _ hb, fun row hr => ?_⟩
    cases hp : handler.produced with
    | infer =>
      rw [Ty.occursRows, hp] at hr
      cases List.mem_singleton.mp hr
      exact hfirst
    | explicit second =>
      rw [Ty.occursRows, hp] at hr
      rcases List.mem_cons.mp hr with rfl | hr
      · exact hfirst
      · cases List.mem_singleton.mp hr
        rw [hp] at hproduced
        obtain ⟨expanded, he, hsub⟩ := hrow hproduced
        refine ⟨expanded, he, fun b hb => ?_⟩
        exact List.mem_append_left _ (List.mem_append_right _ (hsub hb))
  | task task =>
    simp only [nodeDependencies] at h
    obtain ⟨members, hmembers, h⟩ := bind_eq_ok.mp h
    cases h
    refine ⟨fun b hb => ?_, fun row hr => ?_⟩
    · cases List.mem_singleton.mp hb
      exact List.mem_cons_self
    · cases List.mem_singleton.mp hr
      obtain ⟨expanded, he, hsub⟩ := hrow hmembers
      exact ⟨expanded, he, fun b hb => List.mem_cons_of_mem _ (hsub hb)⟩
  | continuation continuation =>
    simp only [nodeDependencies] at h
    obtain ⟨members, hmembers, h⟩ := bind_eq_ok.mp h
    cases h
    refine ⟨fun b hb => List.mem_append_left _ hb, fun row hr => ?_⟩
    obtain ⟨expanded, he, hsub⟩ := hopt hmembers row hr
    exact ⟨expanded, he, fun b hb => List.mem_append_right _ (hsub hb)⟩
  | resourceHandle handle =>
    cases handle <;>
    · cases h
      exact ⟨List.Subset.refl _, fun row hr => by cases hr⟩
  | _ =>
    cases h
    exact ⟨List.Subset.refl _, fun row hr => by cases hr⟩

theorem nodeDependencies_active
    (h : σ.expansionDepth = none ∨ ∀ equations, σ.effectRows ≠ some (.equations equations))
    (active active' : ℕ) (ty : Ty) :
    nodeDependencies σ active ty = nodeDependencies σ active' ty := by
  have hrow : rowDependencies σ active = rowDependencies σ active' := by
    funext row
    unfold rowDependencies
    rw [SubstitutionInput.expandedRow_active h active active']
  have hopt : optionRowDependencies σ active = optionRowDependencies σ active' := by
    funext row
    cases row with
    | none => rfl
    | some row => exact congrFun hrow row
  have hproduced : producedDependencies σ active = producedDependencies σ active' := by
    funext produced
    cases produced with
    | infer => rfl
    | explicit row => exact congrFun hrow row
  unfold nodeDependencies
  rw [hrow, hopt, hproduced]

theorem dependencies_active
    (h : σ.expansionDepth = none ∨ ∀ equations, σ.effectRows ≠ some (.equations equations))
    (active active' : ℕ) (a : TypeId) :
    dependencies σ S active a = dependencies σ S active' a := by
  unfold dependencies
  simp only [nodeDependencies_active h active active']

/-- A type is an argument for its own binder, it is replaced by another type, or it is rebuilt from
what is listed. -/
inductive Depends (S : TypeStore) (σ : SubstitutionInput) (active : ℕ) (a : TypeId) :
    List TypeId → Prop
  | argument {name : NamedTypeRef} {r : TypeId} (h : S.get a = some (.named name))
      (hr : σ.target S a (.named name) = some r) : Depends S σ active a []
  | follow {ty : Ty} {r : TypeId} (h : S.get a = some ty) (hn : ∀ name, ty ≠ .named name)
      (hr : σ.target S a ty = some r) : Depends S σ active a [r]
  | node {ty : Ty} {as : List TypeId} (h : S.get a = some ty) (hr : σ.target S a ty = none)
      (hlisted : Listed σ active ty as) : Depends S σ active a as

theorem dependencies_ok {a : TypeId} (h : dependencies σ S active a = .ok as) :
    Depends S σ active a as := by
  obtain ⟨ty, hrequire, h⟩ := bind_eq_ok.mp h
  have hget : S.get a = some ty := by
    unfold requireType at hrequire
    cases hget : S.get a with
    | none =>
      rw [hget] at hrequire
      cases hrequire
    | some data =>
      rw [hget] at hrequire
      cases hrequire
      rfl
  cases hr : σ.target S a ty with
  | none =>
    rw [hr] at h
    exact .node hget hr (nodeDependencies_listed h)
  | some r =>
    rw [hr] at h
    cases ty with
    | named name =>
      cases h
      exact .argument hget hr
    | _ =>
      cases h
      exact .follow hget (by simp) hr

/-! Two engines at one type. -/

/-- Nothing but solver variables is replaced, and no argument is met. -/
structure SubstitutionInput.Bare (σ : SubstitutionInput) : Prop where
  named : σ.named = none
  parameters : σ.parameters = none
  canonicalParameters : σ.canonicalParameters = none
  typeParameters : σ.typeParameters = none
  effectRows : σ.effectRows = none

namespace SubstitutionInput

theorem onlyVariables_bare (σ : SubstitutionInput) : σ.onlyVariables.Bare :=
  ⟨rfl, rfl, rfl, rfl, rfl⟩

theorem Bare.target_named (hσ : σ.Bare) (S : TypeStore) (a : TypeId) (name : NamedTypeRef) :
    σ.target S a (.named name) = none := by
  have hreplacement : σ.replacement S a (.named name) = none := by
    unfold replacement
    rw [hσ.typeParameters, hσ.canonicalParameters, hσ.parameters, hσ.named]
    dsimp only [Option.bind_none]
    split <;> rfl
  unfold target
  rw [hreplacement]
  rfl

theorem Bare.argumentStart (hσ : σ.Bare) (h : σ.expandedRow active row = .ok expanded) :
    expanded.argumentStart = none := by
  rw [expandedRow_eq hσ.effectRows] at h
  cases h
  rfl

end SubstitutionInput

/-- Calls for arguments come to an end. -/
def ArgumentsEnd (S : TypeStore) (sub : SubstitutionInput → TypeId → EngineM TypeStore TypeId)
    (σ : SubstitutionInput) : Prop :=
  ∀ b, ∃ result after, sub σ.onlyVariables b (.fresh S) = some (result, after) ∧ after.target = S

/-- Two computations give the same result, each on its engine, which it leaves alone. -/
def Same (e e' : Engine TypeStore) : EngineRel TypeStore TypeStore :=
  fun p p' => ∃ result, p e = some (result, e) ∧ p' e' = some (result, e')

theorem same_monadic (e e' : Engine TypeStore) : Monadic (Same e e') where
  pure a := ⟨.ok a, rfl, rfl⟩
  bind := by
    intro α β p p' f f' ⟨result, hp, hp'⟩ hf
    cases result with
    | error error => exact ⟨.error error, bind_error hp f, bind_error hp' f'⟩
    | ok a =>
      obtain ⟨result, hfa, hfa'⟩ := hf a
      refine ⟨result, ?_, ?_⟩
      · rw [bind_ok hp f, hfa]
      · rw [bind_ok hp' f', hfa']

theorem assemble_get {sub : SubstitutionInput → TypeId → EngineM TypeStore TypeId}
    {engine : Engine TypeStore} {a : TypeId} {ty : Ty} (htarget : engine.target = S)
    (h : S.get a = some ty) :
    assemble .existing sub σ a engine =
      (σ.target S a ty).elim (rebuild .existing sub σ a ty) (replace .existing sub σ ty) engine := by
  have hrequire : Returns (engineRequire .existing a) engine ty := by
    unfold Returns
    rw [engineRequire_existing htarget, requireType, h]
  unfold assemble
  rw [hrequire.bind_apply, ← htarget, SubstitutionTarget.existing]
  dsimp only
  cases σ.target engine.target a ty with
  | none => rfl
  | some replacement => rfl

variable {sub : SubstitutionInput → TypeId → EngineM TypeStore TypeId} {e e' : Engine TypeStore}

/-- Two engines over `S` whose tables agree on the listed types. -/
structure Agree (S : TypeStore) (as : List TypeId) (e e' : Engine TypeStore) : Prop where
  target : e.target = S
  target' : e'.target = S
  memo : ∀ b ∈ as, ∃ r, e.memo.get b = some r ∧ e'.memo.get b = some r

variable {as : List TypeId} (hagree : Agree S as e e')
  (hsub : ∀ (engine : Engine TypeStore) b r, engine.memo.get b = some r →
    Returns (sub σ b) engine r) (hends : σ.Bare ∨ ArgumentsEnd S sub σ)
include hagree

theorem substituteArgument_same (hends : ArgumentsEnd S sub σ) (b : TypeId) :
    Same e e' (substituteArgument .existing sub σ b) (substituteArgument .existing sub σ b) := by
  refine (same_monadic e e').bind ⟨requireType S b, engineRequire_existing hagree.target,
    engineRequire_existing hagree.target'⟩ fun _ => ?_
  split_ifs
  · exact (same_monadic e e').pure b
  · obtain ⟨result, after, hinner, htarget⟩ := hends b
    have hcall : ∀ engine : Engine TypeStore, engine.target = S →
        substituteInner sub σ b engine = some (result, engine) := by
      intro engine h
      unfold substituteInner Engine.inner
      rw [h, hinner]
      dsimp only
      rw [htarget, ← h]
    exact ⟨result, hcall e hagree.target, hcall e' hagree.target'⟩

theorem substituteArguments_same (hends : ArgumentsEnd S sub σ) (effect : EffectRef) :
    Same e e' (substituteEffect .existing sub σ true effect)
      (substituteEffect .existing sub σ true effect) := by
  have hP := same_monadic e e'
  refine hP.map (hP.mapM fun arg _ => ?_) _
  cases arg with
  | type b => exact hP.map (substituteArgument_same hagree hends b) _
  | _ => exact hP.pure _

include hsub

theorem sub_same {b : TypeId} (hb : b ∈ as) : Same e e' (sub σ b) (sub σ b) := by
  obtain ⟨r, hr, hr'⟩ := hagree.memo b hb
  exact ⟨.ok r, hsub e b r hr, hsub e' b r hr'⟩

theorem substituteEffect_same {effect : EffectRef} (h : effect.refs ⊆ as) :
    Same e e' (substituteEffect .existing sub σ false effect)
      (substituteEffect .existing sub σ false effect) := by
  have hP := same_monadic e e'
  refine hP.map (hP.mapM fun arg harg => ?_) _
  cases arg with
  | type b =>
    have hb : b ∈ effect.refs := List.mem_flatMap.mpr ⟨.type b, harg, List.mem_singleton_self b⟩
    exact hP.map (sub_same hagree hsub (h hb)) _
  | _ => exact hP.pure _

include hends

theorem substituteEffectRow_same (hrow : σ.expandedRow e.active.card row = .ok expanded)
    (hrow' : σ.expandedRow e'.active.card row = .ok expanded)
    (htemplate : expanded.template.flatMap EffectRef.refs ⊆ as) :
    Same e e' (substituteEffectRow .existing sub σ row)
      (substituteEffectRow .existing sub σ row) := by
  have hP := same_monadic e e'
  have hexpand : ∀ engine : Engine TypeStore,
      σ.expandedRow engine.active.card row = .ok expanded →
      (fun engine => some (σ.expandedRow engine.active.card row, engine) :
        EngineM TypeStore ExpandedRow) engine = some (.ok expanded, engine) := by
    intro engine h
    dsimp only
    rw [h]
  have heffects : Same e e'
      (expanded.row.effects.zipIdx.mapM fun p =>
        substituteEffect .existing sub σ (expanded.argumentStart.any (· ≤ p.2)) p.1)
      (expanded.row.effects.zipIdx.mapM fun p =>
        substituteEffect .existing sub σ (expanded.argumentStart.any (· ≤ p.2)) p.1) := by
    refine hP.mapM fun p hp => ?_
    cases ha : expanded.argumentStart.any (· ≤ p.2) with
    | false =>
      refine substituteEffect_same hagree hsub fun b hb => htemplate ?_
      exact List.mem_flatMap.mpr ⟨p.1, ExpandedRow.mem_template hp ha, hb⟩
    | true =>
      rcases hends with hbare | hends
      · rw [hbare.argumentStart hrow] at ha
        cases ha
      · exact substituteArguments_same hagree hends p.1
  obtain ⟨result, h, h'⟩ := hP.map heffects fun effects =>
    ({ expanded.row with effects := uniqueMembers row.effects.length [] effects } : EffectRowRef)
  refine ⟨result, ?_, ?_⟩
  · exact (bind_ok (hexpand e hrow) _).trans h
  · exact (bind_ok (hexpand e' hrow') _).trans h'

theorem assemble_same {a : TypeId} (h : dependencies σ S e.active.card a = .ok as)
    (h' : dependencies σ S e'.active.card a = .ok as) :
    Same e e' (assemble .existing sub σ a) (assemble .existing sub σ a) := by
  have hP := same_monadic e e'
  have hget : ∀ {ty : Ty}, S.get a = some ty →
      Same e e' ((σ.target S a ty).elim (rebuild .existing sub σ a ty) (replace .existing sub σ ty))
        ((σ.target S a ty).elim (rebuild .existing sub σ a ty) (replace .existing sub σ ty)) →
      Same e e' (assemble .existing sub σ a) (assemble .existing sub σ a) := by
    intro ty hget ⟨result, h, h'⟩
    refine ⟨result, ?_, ?_⟩
    · rw [assemble_get hagree.target hget, h]
    · rw [assemble_get hagree.target' hget, h']
  cases dependencies_ok h with
  | @argument name r hty hr =>
    refine hget hty ?_
    rw [hr]
    rcases hends with hbare | hends
    · rw [hbare.target_named] at hr
      cases hr
    · exact substituteArgument_same hagree hends r
  | @follow ty r hty hn hr =>
    refine hget hty ?_
    rw [hr]
    have hcall := sub_same hagree hsub (List.mem_singleton_self r)
    cases ty with
    | named name => exact absurd rfl (hn name)
    | _ => exact hcall
  | @node ty _ hty hr hlisted =>
    refine hget hty ?_
    rw [hr]
    have hlisted' : Listed σ e'.active.card ty as := by
      cases dependencies_ok h' with
      | argument hty' hr' =>
        cases hty.symm.trans hty'
        cases hr.symm.trans hr'
      | follow hty' _ hr' =>
        cases hty.symm.trans hty'
        cases hr.symm.trans hr'
      | node hty' _ hlisted' =>
        cases hty.symm.trans hty'
        exact hlisted'
    have hnode : Same e e' (assembleNode .existing sub σ ty) (assembleNode .existing sub σ ty) := by
      refine hP.assembled (fun b hb => sub_same hagree hsub (hlisted.own hb)) fun row hrow => ?_
      obtain ⟨expanded, he, htemplate⟩ := hlisted.rows row hrow
      obtain ⟨expanded', he', -⟩ := hlisted'.rows row hrow
      cases SubstitutionInput.expandedRow_unique he he'
      exact substituteEffectRow_same hagree hsub hends he he' htemplate
    refine hP.bind hnode fun o => ?_
    cases o with
    | none => exact hP.pure a
    | some specialized =>
      exact ⟨_, engineMaterialize_existing hagree.target hty specialized,
        engineMaterialize_existing hagree.target' hty specialized⟩

end EtasFrontend.Types
