import EtasFrontend.Types.Substitution

/-! Two engines side by side: a relation between their computations that the monad keeps is kept by
everything an assembly does. -/
namespace EtasFrontend.Types
open Lib

/-- The components of a node that stand outside of its rows. -/
def Ty.ownRefs : Ty → List TypeId
  | .function flow => flow.input ++ [flow.output]
  | .handler h => h.result.toList
  | .task t => [t.output]
  | .continuation c => c.actionOutput :: c.handledAnswer.toList
  | ty => ty.refs

/-- A relation between the computations of two engines. -/
abbrev EngineRel (T T' : Type) := ∀ {α : Type}, EngineM T α → EngineM T' α → Prop

/-- The relation holds between two computations that return, and is kept by sequencing. -/
structure Monadic {T T' : Type} (P : EngineRel T T') : Prop where
  pure : ∀ {α : Type} (a : α), P (pure a) (pure a)
  bind : ∀ {α β : Type} {p : EngineM T α} {p' : EngineM T' α} {f : α → EngineM T β}
    {f' : α → EngineM T' β}, P p p' → (∀ a, P (f a) (f' a)) → P (p >>= f) (p' >>= f')

namespace Monadic
variable {T T' : Type} {P : EngineRel T T'} (hP : Monadic P)
include hP

theorem map {α β : Type} {p : EngineM T α} {p' : EngineM T' α} (h : P p p') (f : α → β) :
    P (p >>= fun a => Pure.pure (f a)) (p' >>= fun a => Pure.pure (f a)) :=
  hP.bind h fun a => hP.pure (f a)

theorem map₂ {α β γ : Type} {p : EngineM T α} {p' : EngineM T' α} {q : EngineM T β}
    {q' : EngineM T' β} (hp : P p p') (hq : P q q') (f : α → β → γ) :
    P (p >>= fun a => q >>= fun b => Pure.pure (f a b))
      (p' >>= fun a => q' >>= fun b => Pure.pure (f a b)) :=
  hP.bind hp fun a => hP.map hq (f a)

theorem mapM {α β : Type} {f : α → EngineM T β} {f' : α → EngineM T' β} {l : List α}
    (h : ∀ a ∈ l, P (f a) (f' a)) : P (l.mapM f) (l.mapM f') := by
  induction l with
  | nil => exact hP.pure []
  | cons a l ih =>
    obtain ⟨ha, hl⟩ := List.forall_mem_cons.mp h
    rw [List.mapM_cons, List.mapM_cons]
    exact hP.map₂ ha (ih hl) fun b bs => b :: bs

theorem optionMapM {α β : Type} {f : α → EngineM T β} {f' : α → EngineM T' β} {o : Option α}
    (h : ∀ a ∈ o.toList, P (f a) (f' a)) : P (o.mapM f) (o.mapM f') := by
  cases o with
  | none => exact hP.pure none
  | some a => exact hP.map (h a (by simp)) some

variable {target : SubstitutionTarget T} {target' : SubstitutionTarget T'} {σ : SubstitutionInput}
  {sub : SubstitutionInput → TypeId → EngineM T TypeId}
  {sub' : SubstitutionInput → TypeId → EngineM T' TypeId}

theorem substituteProduced {produced : HandlerProducedEffects}
    (hrow : ∀ row, produced = .explicit row →
      P (substituteEffectRow target sub σ row) (substituteEffectRow target' sub' σ row)) :
    P (substituteProduced target sub σ produced) (substituteProduced target' sub' σ produced) := by
  cases produced with
  | infer => exact hP.pure _
  | explicit row => exact hP.map (hrow row rfl) HandlerProducedEffects.explicit

theorem assembled {ty : Ty} (hsub : ∀ b ∈ ty.ownRefs, P (sub σ b) (sub' σ b))
    (hrow : ∀ row ∈ ty.occursRows,
      P (substituteEffectRow target sub σ row) (substituteEffectRow target' sub' σ row)) :
    P (assembleNode target sub σ ty) (assembleNode target' sub' σ ty) := by
  cases ty with
  | existential bounds =>
    simp only [assembleNode]
    refine hP.map (hP.mapM fun bound hbound => ?_) _
    refine hP.map (hP.mapM fun b hb => ?_) _
    exact hsub b (List.mem_flatMap.mpr ⟨bound, hbound, hb⟩)
  | record r =>
    simp only [assembleNode]
    refine hP.map (hP.mapM fun field hfield => ?_) _
    exact hP.map (hsub field.ty (List.mem_map_of_mem hfield)) _
  | tuple elements =>
    simp only [assembleNode]
    exact hP.map (hP.mapM hsub) _
  | function flow =>
    simp only [assembleNode]
    refine hP.bind (hP.mapM fun b hb => hsub b (List.mem_append_left _ hb)) fun input => ?_
    exact hP.map₂ (hsub flow.output (by simp [Ty.ownRefs])) (hP.optionMapM hrow) _
  | handler h =>
    simp only [assembleNode]
    refine hP.bind (hrow h.handled ?_) fun handled => ?_
    · cases hp : h.produced <;> simp [Ty.occursRows, hp]
    · refine hP.map₂ (hP.substituteProduced fun row hprod => ?_) (hP.optionMapM hsub) _
      exact hrow row (by simp [Ty.occursRows, hprod])
  | task t =>
    simp only [assembleNode]
    exact hP.map₂ (hsub t.output (by simp [Ty.ownRefs])) (hrow t.effects (by simp [Ty.occursRows])) _
  | continuation c =>
    simp only [assembleNode]
    refine hP.bind (hsub c.actionOutput (by simp [Ty.ownRefs])) fun actionOutput => ?_
    exact hP.map₂ (hP.optionMapM fun b hb => hsub b (List.mem_cons_of_mem _ hb))
      (hP.optionMapM hrow) _
  | applied constructor args =>
    simp only [assembleNode]
    exact hP.map (hP.mapM hsub) _
  | map key value | result key value | store key value =>
    simp only [assembleNode]
    exact hP.map₂ (hsub key (by simp [Ty.ownRefs, Ty.refs])) (hsub value (by simp [Ty.ownRefs, Ty.refs])) _
  | resourceHandle handle =>
    cases handle with
    | memoryRegion schema =>
      simp only [assembleNode]
      exact hP.map (hsub schema (by simp [Ty.ownRefs, Ty.refs])) _
    | externalTool signature =>
      simp only [assembleNode]
      exact hP.map (hsub signature (by simp [Ty.ownRefs, Ty.refs])) _
    | other name args =>
      simp only [assembleNode]
      exact hP.map (hP.mapM hsub) _
  | primitive | schedulerHandle | prompt | promptPart | memoryPlace | integerLiteral | var | enum
  | named | nominal => exact hP.pure none
  | _ =>
    simp only [assembleNode]
    exact hP.map (hsub _ (by simp [Ty.ownRefs, Ty.refs])) _

end Monadic
end EtasFrontend.Types
