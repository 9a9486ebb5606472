import EtasFrontend.Types.SubstitutionSpec

/-! The two passes over a node agree: what is listed as its dependencies is what its assembly asks
for, position by position. -/
namespace EtasFrontend.Types
open Lib

/-! Nodes. -/

section
variable {ρ τ υ : Type}

theorem EffectRowRef.map_map (f : ρ → τ) (g : τ → υ) (row : EffectRowRef ρ) :
    (row.map f).map g = row.map (g ∘ f) := by
  simp only [EffectRowRef.map, List.map_map, EffectRowRef.mk.injEq, and_true]
  refine List.map_congr_left fun effect _ => ?_
  simp only [Function.comp, EffectRef.map, List.map_map, EffectRef.mk.injEq, true_and]
  exact List.map_congr_left fun arg _ => by cases arg <;> rfl

theorem Ty.mapParts_mapParts (con f : ρ → τ) (con' f' : τ → υ) (ty : Ty ρ) :
    (ty.mapParts con f).mapParts con' f' = ty.mapParts (con' ∘ con) (f' ∘ f) := by
  have hrow (row : Option (EffectRowRef ρ)) :
      (row.map (EffectRowRef.map f)).map (EffectRowRef.map f') =
        row.map (EffectRowRef.map (f' ∘ f)) := by
    cases row <;> simp [EffectRowRef.map_map]
  cases ty with
  | existential bounds => simp [mapParts, CheckedSpecBound.map]
  | record r => simp [mapParts, FieldType.map]
  | function flow => simp [mapParts, hrow]
  | handler h =>
    cases hp : h.produced <;>
      simp [mapParts, hp, HandlerProducedEffects.map, EffectRowRef.map_map]
  | task t => simp [mapParts, EffectRowRef.map_map]
  | continuation c => simp [mapParts, hrow]
  | resourceHandle r => cases r <;> simp [mapParts]
  | _ => simp [mapParts]

theorem Ty.constructorRefs_mapParts (con f : ρ → τ) (ty : Ty ρ) :
    (ty.mapParts con f).constructorRefs = ty.constructorRefs.map con := by
  cases ty with
  | resourceHandle r => cases r <;> rfl
  | _ => rfl

namespace Ty.SameUpToBounds

variable {ty ty' : Ty ρ}

theorem constructorRefs (h : ty.SameUpToBounds ty') : ty'.constructorRefs = ty.constructorRefs := by
  obtain rfl | ⟨_, _, rfl, rfl, _⟩ := h <;> rfl

theorem mem_refs (h : ty.SameUpToBounds ty') {b : ρ} : b ∈ ty'.refs ↔ b ∈ ty.refs := by
  obtain rfl | ⟨bs, bs', rfl, rfl, hb⟩ := h
  · rfl
  · simp [refs, hb]

theorem map (h : ty.SameUpToBounds ty') (f : ρ → τ) :
    (ty.mapRefs f).SameUpToBounds (ty'.mapRefs f) := by
  obtain rfl | ⟨bs, bs', rfl, rfl, hb⟩ := h
  · exact .inl rfl
  · exact .inr ⟨_, _, rfl, rfl, by simp [hb]⟩

end Ty.SameUpToBounds

theorem sameUpToBounds_canonicalType {ty : Ty} (h : ty ≠ .tuple []) :
    ty.SameUpToBounds (canonicalType ty) := by
  cases ty with
  | existential bounds =>
    exact .inr ⟨_, _, rfl, rfl, fun b => mem_destutter_insertionSort CheckedSpecBound.Le⟩
  | tuple elements =>
    cases elements with
    | nil => exact absurd rfl h
    | cons e rest => exact .inl rfl
  | _ => exact .inl rfl

end

/-- Nodes without components. -/
def Ty.isLeaf {ρ : Type} : Ty ρ → Bool
  | .primitive _ | .schedulerHandle | .prompt | .promptPart | .memoryPlace _
  | .integerLiteral _ | .var _ | .enum _ | .named _ | .nominal _ => true
  | _ => false

section
variable {σ : SubstitutionInput} (hrows : σ.effectRows = none)
include hrows

theorem expandedRow_eq (active : ℕ) (row : EffectRowRef) :
    σ.expandedRow active row = .ok ⟨row, none⟩ := by
  simp [SubstitutionInput.expandedRow, hrows]

theorem rowDependencies_eq (active : ℕ) (row : EffectRowRef) :
    rowDependencies σ active row = .ok row.refs := by
  simp only [rowDependencies, expandedRow_eq hrows]
  rfl

theorem nodeDependencies_eq (active : ℕ) (ty : Ty) :
    nodeDependencies σ active ty = .ok ty.refs := by
  have hopt (row : Option EffectRowRef) :
      optionRowDependencies σ active row = .ok (optionRowRefs row) := by
    cases row with
    | none => rfl
    | some row => exact rowDependencies_eq hrows active row
  cases ty with
  | function flow =>
    simp only [nodeDependencies, hopt]
    rfl
  | handler h =>
    have hproduced : producedDependencies σ active h.produced = .ok h.produced.refs := by
      cases h.produced with
      | infer => rfl
      | explicit row => exact rowDependencies_eq hrows active row
    simp only [nodeDependencies, hproduced, rowDependencies_eq hrows]
    rfl
  | task t =>
    simp only [nodeDependencies, rowDependencies_eq hrows]
    rfl
  | continuation c =>
    simp only [nodeDependencies, hopt]
    rfl
  | resourceHandle r => cases r <;> rfl
  | _ => rfl

theorem dependencies_eq (S : TypeStore) (active : ℕ) {a : TypeId} {ty : Ty}
    (h : S.get a = some ty) : dependencies σ S active a = .ok (needsList σ S a) := by
  have hrequire : requireType S a = .ok ty := by simp [requireType, h]
  unfold dependencies needsList
  rw [hrequire, h]
  cases htarget : σ.target S a ty with
  | none =>
    have hnode := nodeDependencies_eq hrows active ty
    simpa [Bind.bind, Except.bind, htarget] using hnode
  | some r => cases ty <;> simp [Bind.bind, Except.bind, htarget] <;> rfl

end

/-! Assembly from components that are known. -/

section
variable {T α β : Type}

/-- The computation returns `a` and leaves the engine alone. -/
def Returns (m : EngineM T α) (engine : Engine T) (a : α) : Prop := m engine = some (.ok a, engine)

variable {engine : Engine T}

namespace Returns

theorem pure (a : α) : Returns (Pure.pure a : EngineM T α) engine a := rfl

variable {m : EngineM T α}

theorem bind_apply {a : α} (hm : Returns m engine a) (f : α → EngineM T β) :
    (m >>= f) engine = f a engine := by
  change (m engine).bind (fun p => ExceptT.bindCont f p.1 p.2) = _
  rw [hm]
  rfl

variable {f : α → EngineM T β}

theorem bind {a : α} {b : β} (hm : Returns m engine a)
    (hf : Returns (f a) engine b) : Returns (m >>= f) engine b :=
  (hm.bind_apply f).trans hf

theorem map {a : α} (hm : Returns m engine a) (g : α → β) : Returns (g <$> m) engine (g a) := by
  rw [map_eq_pure_bind]
  exact hm.bind (.pure _)

theorem mapM {g : α → β} {l : List α}
    (h : ∀ a ∈ l, Returns (f a) engine (g a)) : Returns (l.mapM f) engine (l.map g) := by
  induction l with
  | nil => exact .pure []
  | cons a l ih =>
    rw [List.mapM_cons]
    refine (h a List.mem_cons_self).bind ?_
    exact (ih fun b hb => h b (List.mem_cons_of_mem _ hb)).bind (.pure _)

theorem optionMapM {g : α → β} {o : Option α}
    (h : ∀ a ∈ o.toList, Returns (f a) engine (g a)) : Returns (o.mapM f) engine (o.map g) := by
  cases o with
  | none => exact .pure none
  | some a => exact (h a List.mem_cons_self).map some

end Returns
end

variable {T : Type} {target : SubstitutionTarget T}
  {sub : SubstitutionInput → TypeId → EngineM T TypeId} {σ : SubstitutionInput} {engine : Engine T}
  {m : TypeId → TypeId}

theorem uniqueMembers_eq (seen effects : List EffectRef) {n : ℕ} (h : effects.length ≤ n) :
    uniqueMembers n seen effects = effects := by
  induction effects generalizing n seen with
  | nil => rfl
  | cons effect rest ih =>
    rw [List.length_cons] at h
    have hn : 0 < n := by omega
    rw [uniqueMembers, if_pos (by simp [hn]), ih _ (by omega)]

theorem substituteEffect_returns {effect : EffectRef}
    (h : ∀ b ∈ effect.refs, Returns (sub σ b) engine (m b)) :
    Returns (substituteEffect target sub σ false effect) engine (effect.map m) := by
  refine Returns.bind (Returns.mapM (g := EffectArgRef.map m) fun arg harg => ?_) (.pure _)
  cases arg with
  | type ty =>
    have hb : ty ∈ effect.refs := List.mem_flatMap.2 ⟨_, harg, List.mem_singleton_self ty⟩
    exact (h ty hb).bind (.pure _)
  | path _ | string _ | int _ | wildcard => exact .pure _

theorem substituteEffectRow_returns (hrows : σ.effectRows = none) {row : EffectRowRef}
    (h : ∀ b ∈ row.refs, Returns (sub σ b) engine (m b)) :
    Returns (substituteEffectRow target sub σ row) engine (row.map m) := by
  have hexpand : Returns
      (fun engine => some (σ.expandedRow engine.active.card row, engine) : EngineM T ExpandedRow)
      engine ⟨row, none⟩ := by
    simp only [Returns, expandedRow_eq hrows]
  refine hexpand.bind ?_
  have heffects : Returns (row.effects.zipIdx.mapM fun p =>
      substituteEffect target sub σ ((none : Option ℕ).any (· ≤ p.2)) p.1) engine
      (row.effects.zipIdx.map fun p => p.1.map m) := by
    refine Returns.mapM fun p hp => substituteEffect_returns fun b hb => ?_
    exact h b (List.mem_flatMap.2 ⟨p.1, List.fst_mem_of_mem_zipIdx hp, hb⟩)
  have hmap : (row.effects.zipIdx.map fun p => p.1.map m) = row.effects.map (EffectRef.map m) := by
    conv_rhs => rw [← List.zipIdx_map_fst 0 row.effects, List.map_map]
    rfl
  rw [hmap] at heffects
  have hunique := uniqueMembers_eq [] (row.effects.map (EffectRef.map m))
    (n := row.effects.length) (by simp)
  refine heffects.bind ?_
  simp only [hunique]
  exact .pure _

/-- A node with components is rebuilt with their results in place, and its declaration kept; any
other node is its own result. -/
theorem assembleNode_returns (target : SubstitutionTarget T) (hrows : σ.effectRows = none) {ty : Ty}
    (h : ∀ b ∈ ty.refs, Returns (sub σ b) engine (m b)) :
    Returns (assembleNode target sub σ ty) engine
      (if ty.isLeaf then none else some (ty.mapParts id m)) := by
  have hone {b : TypeId} {mk : TypeId → Ty} (hb : Returns (sub σ b) engine (m b)) :
      Returns (sub σ b >>= fun r => Pure.pure (some (mk r)) : EngineM T (Option Ty)) engine
        (some (mk (m b))) := hb.bind (.pure _)
  cases ty with
  | existential bounds =>
    refine Returns.bind (Returns.mapM (g := CheckedSpecBound.map m) fun bound hb => ?_) (.pure _)
    refine Returns.bind (Returns.mapM (g := m) fun b hbb => ?_) (.pure _)
    exact h b (List.mem_flatMap.2 ⟨bound, hb, hbb⟩)
  | array inner | list inner | set inner | range inner | slice inner | option inner
  | refined inner _ | trust _ inner | schema inner | message inner | memorySelection inner
  | memoryRegion inner => exact hone (h inner List.mem_cons_self)
  | map key value | store key value | result key value =>
    refine (h key (by simp [Ty.refs])).bind ?_
    exact hone (h value (by simp [Ty.refs]))
  | record r =>
    refine Returns.bind (Returns.mapM (g := FieldType.map m) fun field hf => ?_) (.pure _)
    exact (h field.ty (List.mem_map_of_mem hf)).bind (.pure _)
  | tuple elements => exact (Returns.mapM h).bind (.pure _)
  | function flow =>
    simp only [Ty.refs, List.mem_append, List.mem_cons] at h
    refine Returns.bind (Returns.mapM fun b hb => h b (.inl hb)) ?_
    refine Returns.bind (h flow.output (.inr (.inl rfl))) ?_
    refine Returns.bind (Returns.optionMapM (g := EffectRowRef.map m) fun row hrow => ?_) (.pure _)
    refine substituteEffectRow_returns hrows fun b hb => h b (.inr (.inr ?_))
    rw [Option.mem_toList] at hrow
    simpa [optionRowRefs, Option.mem_def.1 hrow] using hb
  | handler hd =>
    simp only [Ty.refs, List.mem_append] at h
    refine Returns.bind (substituteEffectRow_returns hrows fun b hb => h b (.inl (.inl hb))) ?_
    have hproduced : Returns (substituteProduced target sub σ hd.produced) engine
        (hd.produced.map m) := by
      cases hp : hd.produced with
      | infer => exact .pure _
      | explicit row =>
        refine Returns.bind (substituteEffectRow_returns hrows fun b hb => ?_) (.pure _)
        exact h b (.inl (.inr (by simpa [hp, HandlerProducedEffects.refs] using hb)))
    refine Returns.bind hproduced ?_
    exact Returns.bind (Returns.optionMapM fun b hb => h b (.inr hb)) (.pure _)
  | task t =>
    simp only [Ty.refs, List.mem_cons] at h
    refine Returns.bind (h t.output (.inl rfl)) ?_
    exact Returns.bind (substituteEffectRow_returns hrows fun b hb => h b (.inr hb)) (.pure _)
  | continuation c =>
    simp only [Ty.refs, List.mem_append, List.mem_cons] at h
    refine Returns.bind (h c.actionOutput (.inl (.inl rfl))) ?_
    refine Returns.bind (Returns.optionMapM fun b hb => h b (.inl (.inr hb))) ?_
    refine Returns.bind (Returns.optionMapM (g := EffectRowRef.map m) fun row hrow => ?_) (.pure _)
    refine substituteEffectRow_returns hrows fun b hb => h b (.inr ?_)
    rw [Option.mem_toList] at hrow
    simpa [optionRowRefs, Option.mem_def.1 hrow] using hb
  | applied con args => exact (Returns.mapM h).bind (.pure _)
  | resourceHandle r =>
    cases r with
    | memoryRegion ty | externalTool ty => exact hone (h ty List.mem_cons_self)
    | other name args => exact (Returns.mapM h).bind (.pure _)
  | _ => exact .pure none

end EtasFrontend.Types
