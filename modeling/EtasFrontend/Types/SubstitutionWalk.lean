import EtasFrontend.Lib.MemoWalk
import EtasFrontend.Types.SubstitutionAssemble

/-! The walk of the substitution engine: its stack, and a bound for its turns. -/
namespace EtasFrontend.Types
open Lib Relation

variable {T : Type} {S : TypeStore} {σ : SubstitutionInput}

theorem follows_of_target {a r : TypeId} {ty : Ty} (h : S.get a = some ty)
    (hn : ∀ name, ty ≠ .named name) (hr : σ.target S a ty = some r) : needsList σ S a = [r] := by
  simp only [needsList, h, hr]

theorem needsList_argument {a r : TypeId} {name : NamedTypeRef} (h : S.get a = some (.named name))
    (hr : σ.target S a (.named name) = some r) : needsList σ S a = [] := by
  simp only [needsList, h, hr]

theorem needsList_of_none {a : TypeId} {ty : Ty} (h : S.get a = some ty)
    (hr : σ.target S a ty = none) : needsList σ S a = ty.refs := by
  simp only [needsList, h, hr]

/-! The state of a walk. -/

section
variable (S : TypeStore) (σ : SubstitutionInput)

/-- What is still to be pushed. -/
def remaining (engine : Engine T) : ℕ :=
  toPush (needsList σ S) (Finset.range S.len) engine.active fun a => (engine.memo.get a).isSome

/-- What holds of the stack between two turns of the walk from `root`. -/
structure Walking (root : TypeId) (engine : Engine T) (stack : List (TypeId × Bool))
    (entered : List TypeId) : Prop where
  stack : StackInv (needsList σ S) root engine.active (fun a => (engine.memo.get a).isSome) stack
  entered : ∀ a ∈ engine.active, a ∈ entered

end

section
variable {root current : TypeId} {engine : Engine T} {finish : Bool}
  {rest : List (TypeId × Bool)} {entered : List TypeId}

theorem isSome_insert (memo : Map TypeId TypeId) (r b : TypeId) :
    ((memo.insert current r).get b).isSome ↔ b = current ∨ (memo.get b).isSome := by
  rw [Map.get_insert]
  split_ifs with hb
  · simp [hb]
  · simp [hb]

theorem remaining_enter {ty : Ty} (hc : S.get current = some ty) (ha : current ∉ engine.active)
    (hm : engine.memo.get current = none) :
    remaining S σ engine = (needsList σ S current).length + 1 +
      remaining S σ { engine with active := insert current engine.active } :=
  toPush_enter (needsList σ S) _ (Finset.mem_range.mpr (TypeStore.lt_len_of_get hc)) ha
    (by simp [hm])

theorem remaining_finish (engine : Engine T) (r : TypeId) (target : T) :
    remaining S σ ⟨target, engine.active.erase current, engine.memo.insert current r,
      engine.memoDepths⟩ ≤ remaining S σ engine :=
  toPush_finish (needsList σ S) _ _ (isSome_insert engine.memo r)

namespace Walking

theorem start (h : engine.active = ∅) : Walking S σ root engine [(root, false)] [] where
  stack := .start h
  entered a ha := by simp [h] at ha

theorem skip (h : Walking S σ root engine ((current, finish) :: rest) entered)
    (hm : (engine.memo.get current).isSome) : Walking S σ root engine rest entered :=
  ⟨h.stack.skip hm, h.entered⟩

theorem finished (h : Walking S σ root engine ((current, true) :: rest) entered) (r : TypeId)
    (target : T) :
    Walking S σ root
      ⟨target, engine.active.erase current, engine.memo.insert current r, engine.memoDepths⟩ rest
      entered :=
  ⟨h.stack.finished (isSome_insert engine.memo r),
    fun a ha => h.entered a (Finset.mem_of_mem_erase ha)⟩

theorem enter (h : Walking S σ root engine ((current, false) :: rest) entered)
    (hm : engine.memo.get current = none) (ha : current ∉ engine.active) :
    Walking S σ root { engine with active := insert current engine.active }
      ((needsList σ S current).map (·, false) ++ (current, true) :: rest) (entered ++ [current]) := by
  refine ⟨h.stack.enter (by simp [hm]) ha, fun a hmem => ?_⟩
  rcases Finset.mem_insert.mp hmem with rfl | hmem
  · simp
  · exact List.mem_append_left _ (h.entered a hmem)

end Walking
end

/-- A bound for the turns of one walk. -/
def walkBound (σ : SubstitutionInput) (S : TypeStore) : ℕ :=
  2 + ∑ a ∈ Finset.range S.len, ((needsList σ S a).length + 1)

variable {target : SubstitutionTarget T} {engine : Engine T} {a : TypeId}

theorem remaining_lt (engine : Engine T) {n : ℕ} (hn : walkBound σ S ≤ n) :
    1 + remaining S σ engine < n := by
  have hle : remaining S σ engine ≤ ∑ a ∈ Finset.range S.len, ((needsList σ S a).length + 1) :=
    toPush_le ..
  unfold walkBound at hn
  omega

theorem substitute_memo {n : ℕ} {r : TypeId} (h : engine.memo.get a = some r) :
    Returns (substitute target (n + 1) σ a) engine r := by
  simp only [Returns, substitute, h]

/-- What is left of a call after its walk. -/
theorem substitute_walk {n : ℕ} {result : Except TypeSubstitutionError Unit}
    {after : Engine T} {entered : List TypeId} (h : engine.memo.get a = none)
    (hwalk : walk target (substitute target n) σ n engine [(a, false)] [] =
      some (result, after, entered)) :
    substitute target (n + 1) σ a engine =
      some (result.bind fun _ => after.memoized a,
        { after with active := after.active \ entered.toFinset }) := by
  simp only [substitute, h, hwalk]

end EtasFrontend.Types
