import EtasFrontend.Lib.Fallible
import EtasFrontend.Types.SubstitutionExisting
import EtasFrontend.Types.SubstitutionParallel

/-! Two universes of types under one engine. Where one takes and gives back what the other does,
every successful substitution over the first is one over the second. -/
namespace EtasFrontend.Types
open Lib

variable {T T' : Type}

/-- Engines with the same tables over related universes. -/
structure Lockstep (lock : T → T' → Prop) (e : Engine T) (e' : Engine T') : Prop where
  target : lock e.target e'.target
  active : e'.active = e.active
  memo : e'.memo = e.memo
  memoDepths : e'.memoDepths = e.memoDepths

/-- Where the first universe is `good` after a node was placed, the second places it alike. -/
structure Simulates (target : SubstitutionTarget T) (target' : SubstitutionTarget T')
    (good : T → Prop) (lock : T → T' → Prop) : Prop where
  store : ∀ t t', lock t t' → target'.inputStore t' = target.inputStore t
  back : ∀ t ty r t₁, target.place t ty = (.ok r, t₁) → good t₁ → good t
  place : ∀ t t' ty r t₁, lock t t' → ty.isLeaf = false → target.place t ty = (.ok r, t₁) →
    good t₁ → ∃ t₁', target'.place t' ty = (.ok r, t₁') ∧ lock t₁ t₁'

/-- What succeeds over the first universe and leaves it good was good before, and succeeds over the
second. -/
structure Carries (good : T → Prop) (lock : T → T' → Prop) {α : Type} (p : EngineM T α)
    (p' : EngineM T' α) : Prop where
  back : ∀ e a e₁, p e = some (.ok a, e₁) → good e₁.target → good e.target
  forth : ∀ e e' a e₁, Lockstep lock e e' → p e = some (.ok a, e₁) → good e₁.target →
    ∃ e₁', p' e' = some (.ok a, e₁') ∧ Lockstep lock e₁ e₁'

theorem bind_inv {α β : Type} {m : EngineM T α} {f : α → EngineM T β} {e e₂ : Engine T} {b : β}
    (h : (m >>= f) e = some (.ok b, e₂)) :
    ∃ a e₁, m e = some (.ok a, e₁) ∧ f a e₁ = some (.ok b, e₂) := by
  cases hm : m e with
  | none =>
    have hbind : (m >>= f) e = none := by
      change (m e).bind (fun p => ExceptT.bindCont f p.1 p.2) = _
      rw [hm]
      rfl
    cases hbind.symm.trans h
  | some p =>
    obtain ⟨result, e₁⟩ := p
    cases result with
    | error error => cases (bind_error hm f).symm.trans h
    | ok a => exact ⟨a, e₁, rfl, (bind_ok hm f).symm.trans h⟩

/-- A successful computation gives only what has the property. -/
def Yields {α : Type} (p : EngineM T α) (q : α → Prop) : Prop :=
  ∀ e a e₁, p e = some (.ok a, e₁) → q a

variable {good : T → Prop} {lock : T → T' → Prop}
variable {target : SubstitutionTarget T} {target' : SubstitutionTarget T'}
  {sub : SubstitutionInput → TypeId → EngineM T TypeId}
  {sub' : SubstitutionInput → TypeId → EngineM T' TypeId} {σ : SubstitutionInput}

namespace Carries

theorem bind_of {α β : Type} {p : EngineM T α} {p' : EngineM T' α} {f : α → EngineM T β}
    {f' : α → EngineM T' β} {q : α → Prop} (hp : Carries good lock p p') (hq : Yields p q)
    (hf : ∀ a, q a → Carries good lock (f a) (f' a)) :
    Carries good lock (p >>= f) (p' >>= f') := by
  refine ⟨fun e b e₂ h hgood => ?_, fun e e' b e₂ hlock h hgood => ?_⟩
  · obtain ⟨a, e₁, ha, hb⟩ := bind_inv h
    exact hp.back e a e₁ ha ((hf a (hq e a e₁ ha)).back e₁ b e₂ hb hgood)
  · obtain ⟨a, e₁, ha, hb⟩ := bind_inv h
    have hfa := hf a (hq e a e₁ ha)
    obtain ⟨e₁', ha', hlock₁⟩ := hp.forth e e' a e₁ hlock ha (hfa.back e₁ b e₂ hb hgood)
    obtain ⟨e₂', hb', hlock₂⟩ := hfa.forth e₁ e₁' b e₂ hlock₁ hb hgood
    refine ⟨e₂', ?_, hlock₂⟩
    rw [bind_ok ha', hb']

theorem monadic : @Monadic T T' (Carries good lock) where
  pure a := by
    refine ⟨fun e b e₁ h hgood => ?_, fun e e' b e₁ hlock h _ => ?_⟩
    · cases h
      exact hgood
    · cases h
      exact ⟨e', rfl, hlock⟩
  bind hp hf := hp.bind_of (q := fun _ => True) (fun _ _ _ _ => trivial) fun a _ => hf a

theorem read {α γ : Type} (g : Engine T → γ) (g' : Engine T' → γ) {f : γ → EngineM T α}
    {k : γ → EngineM T' α} (hg : ∀ e e', Lockstep lock e e' → g' e' = g e)
    (hf : ∀ c, Carries good lock (f c) (k c)) :
    Carries good lock (fun e => f (g e) e) (fun e => k (g' e) e) := by
  refine ⟨fun e a e₁ h => (hf (g e)).back e a e₁ h, fun e e' a e₁ hlock h hgood => ?_⟩
  rw [hg e e' hlock]
  exact (hf (g e)).forth e e' a e₁ hlock h hgood

theorem answer {α : Type} (x : Except TypeSubstitutionError α) :
    Carries good lock (fun e => some (x, e)) (fun e => some (x, e)) := by
  refine ⟨fun e a e₁ h hgood => ?_, fun e e' a e₁ hlock h _ => ?_⟩
  · cases h
    exact hgood
  · cases h
    exact ⟨e', rfl, hlock⟩

variable (hsim : Simulates target target' good lock)
  (hsub : ∀ σ b, Carries good lock (sub σ b) (sub' σ b))

include hsim in
theorem require (a : TypeId) :
    Carries good lock (engineRequire target a) (engineRequire target' a) := by
  refine read (fun e => requireType (target.inputStore e.target) a)
    (fun e => requireType (target'.inputStore e.target) a) (fun e e' hlock => ?_) answer
  rw [hsim.store _ _ hlock.target]

include hsub in
theorem inner (b : TypeId) : Carries good lock (substituteInner sub σ b) (substituteInner sub' σ b) := by
  have hinv : ∀ {e e₁ : Engine T} {a : TypeId}, substituteInner sub σ b e = some (.ok a, e₁) →
      ∃ after, sub σ.onlyVariables b e.inner = some (.ok a, after) ∧
        e₁ = { e with target := after.target } := by
    intro e e₁ a h
    unfold substituteInner at h
    cases hcall : sub σ.onlyVariables b e.inner with
    | none =>
      rw [hcall] at h
      cases h
    | some p =>
      rw [hcall] at h
      obtain ⟨result, after⟩ := p
      cases h
      exact ⟨after, rfl, rfl⟩
  refine ⟨fun e a e₁ h hgood => ?_, fun e e' a e₁ hlock h hgood => ?_⟩
  · obtain ⟨after, hcall, rfl⟩ := hinv h
    exact (hsub _ _).back e.inner a after hcall hgood
  · obtain ⟨after, hcall, rfl⟩ := hinv h
    have hinner : Lockstep lock e.inner e'.inner := ⟨hlock.target, rfl, rfl, rfl⟩
    obtain ⟨after', hcall', hlock'⟩ := (hsub _ _).forth e.inner e'.inner a after hinner hcall hgood
    refine ⟨{ e' with target := after'.target }, ?_,
      ⟨hlock'.target, hlock.active, hlock.memo, hlock.memoDepths⟩⟩
    unfold substituteInner
    rw [hcall']

include hsim hsub

theorem argument (b : TypeId) :
    Carries good lock (substituteArgument target sub σ b) (substituteArgument target' sub' σ b) := by
  refine monadic.bind (require hsim b) fun _ => ?_
  split_ifs
  · exact monadic.pure b
  · exact inner hsub b

theorem effect (isArgument : Bool) (effect : EffectRef) :
    Carries good lock (substituteEffect target sub σ isArgument effect)
      (substituteEffect target' sub' σ isArgument effect) := by
  refine monadic.map (monadic.mapM fun arg _ => ?_) _
  cases arg with
  | type b =>
    cases isArgument with
    | true => exact monadic.map (argument hsim hsub b) _
    | false => exact monadic.map (hsub σ b) _
  | _ => exact monadic.pure _

theorem effectRow (row : EffectRowRef) :
    Carries good lock (substituteEffectRow target sub σ row)
      (substituteEffectRow target' sub' σ row) := by
  refine monadic.bind ?_ fun expanded => ?_
  · refine read (fun e => σ.expandedRow e.active.card row)
      (fun e => σ.expandedRow e.active.card row) (fun e e' hlock => ?_) answer
    rw [hlock.active]
  · exact monadic.map (monadic.mapM fun p _ => effect hsim hsub _ p.1) _

theorem node (ty : Ty) :
    Carries good lock (assembleNode target sub σ ty) (assembleNode target' sub' σ ty) :=
  monadic.assembled (fun b _ => hsub σ b) fun row _ => effectRow hsim hsub row

end Carries

theorem Yields.bind {α β : Type} {p : EngineM T α} {f : α → EngineM T β} {q : β → Prop}
    (h : ∀ a, Yields (f a) q) : Yields (p >>= f) q := by
  intro e b e₁ hb
  obtain ⟨a, e₂, -, hfa⟩ := bind_inv hb
  exact h a e₂ b e₁ hfa

theorem Yields.pure {α : Type} {a : α} {q : α → Prop} (h : q a) :
    Yields (Pure.pure a : EngineM T α) q := by
  intro e b e₁ hb
  cases hb
  exact h

theorem assembleNode_compound (target : SubstitutionTarget T)
    (sub : SubstitutionInput → TypeId → EngineM T TypeId) (σ : SubstitutionInput) (ty : Ty) :
    Yields (assembleNode target sub σ ty) fun o => ∀ node ∈ o, node.isLeaf = false := by
  have hsome : ∀ {node : Ty}, node.isLeaf = false →
      ∀ node' ∈ some node, node'.isLeaf = false := by
    intro node h node' hmem
    cases hmem
    exact h
  have hmap : ∀ {α : Type} {p : EngineM T α} {f : α → Ty}, (∀ a, (f a).isLeaf = false) →
      Yields (p >>= fun a => Pure.pure (some (f a))) fun o => ∀ node ∈ o, node.isLeaf = false :=
    fun h => .bind fun a => .pure (hsome (h a))
  cases ty with
  | map | result | store | task =>
    exact .bind fun _ => hmap fun _ => rfl
  | function | handler | continuation =>
    exact .bind fun _ => .bind fun _ => hmap fun _ => rfl
  | resourceHandle handle =>
    cases handle with
    | _ => exact hmap fun _ => rfl
  | primitive | schedulerHandle | prompt | promptPart | memoryPlace | integerLiteral | var | enum
  | named | nominal =>
    exact .pure (by simp)
  | _ => exact hmap fun _ => rfl

namespace Carries
variable (hsim : Simulates target target' good lock)
  (hsub : ∀ σ b, Carries good lock (sub σ b) (sub' σ b))
include hsim

theorem materialize (a : TypeId) {node : Ty} (hleaf : node.isLeaf = false) :
    Carries good lock (engineMaterialize target a node) (engineMaterialize target' a node) := by
  refine monadic.bind (require hsim a) fun data => ?_
  split_ifs
  · exact monadic.pure a
  · have hinv : ∀ {e e₁ : Engine T} {r : TypeId},
        (fun engine : Engine T => some ((target.place engine.target node).1,
          { engine with target := (target.place engine.target node).2 })) e = some (.ok r, e₁) →
        ∃ t₁, target.place e.target node = (.ok r, t₁) ∧ e₁ = { e with target := t₁ } := by
      intro e e₁ r h
      obtain ⟨hr, he⟩ := Prod.mk.inj (Option.some.inj h)
      exact ⟨_, Prod.ext hr rfl, he.symm⟩
    refine ⟨fun e r e₁ h hgood => ?_, fun e e' r e₁ hlock h hgood => ?_⟩
    · obtain ⟨t₁, hplace, rfl⟩ := hinv h
      exact hsim.back e.target node r t₁ hplace hgood
    · obtain ⟨t₁, hplace, rfl⟩ := hinv h
      obtain ⟨t₁', hplace', hlock'⟩ :=
        hsim.place e.target e'.target node r t₁ hlock.target hleaf hplace hgood
      refine ⟨{ e' with target := t₁' }, ?_, ⟨hlock', hlock.active, hlock.memo, hlock.memoDepths⟩⟩
      rw [hplace']

include hsub

theorem rebuild (a : TypeId) (ty : Ty) :
    Carries good lock (Types.rebuild target sub σ a ty) (Types.rebuild target' sub' σ a ty) := by
  refine (node hsim hsub ty).bind_of (assembleNode_compound target sub σ ty) fun o ho => ?_
  cases o with
  | none => exact monadic.pure a
  | some node => exact materialize hsim a (ho node rfl)

theorem replace (ty : Ty) (b : TypeId) :
    Carries good lock (Types.replace target sub σ ty b) (Types.replace target' sub' σ ty b) := by
  cases ty with
  | named name => exact argument hsim hsub b
  | _ => exact hsub σ b

theorem assemble (a : TypeId) :
    Carries good lock (Types.assemble target sub σ a) (Types.assemble target' sub' σ a) := by
  refine monadic.bind (require hsim a) fun ty => ?_
  have hstore : ∀ e e', Lockstep lock e e' → σ.target (target'.inputStore e'.target) a ty =
      σ.target (target.inputStore e.target) a ty := by
    intro e e' hlock
    rw [hsim.store _ _ hlock.target]
  have hrebuild : Carries good lock (Types.rebuild target sub σ a ty)
      (Types.rebuild target' sub' σ a ty) := rebuild hsim hsub a ty
  refine ⟨fun e r e₁ h => ?_, fun e e' r e₁ hlock h hgood => ?_⟩
  · cases ho : σ.target (target.inputStore e.target) a ty with
    | none => exact hrebuild.back e r e₁ (by rwa [ho] at h)
    | some replacement =>
      exact (replace hsim hsub ty replacement).back e r e₁ (by rwa [ho] at h)
  · rw [hstore e e' hlock]
    cases ho : σ.target (target.inputStore e.target) a ty with
    | none => exact hrebuild.forth e e' r e₁ hlock (by rwa [ho] at h) hgood
    | some replacement =>
      exact (replace hsim hsub ty replacement).forth e e' r e₁ hlock (by rwa [ho] at h) hgood

end Carries

variable {e e₁ : Engine T}

theorem recordDepth_target {c : TypeId} (h : recordDepth target σ e c = .ok e₁) :
    e₁.target = e.target := by
  unfold recordDepth at h
  cases hlimit : σ.expansionDepth with
  | none =>
    rw [hlimit] at h
    cases h
    rfl
  | some limit =>
    rw [hlimit] at h
    obtain ⟨as, -, h⟩ := bind_eq_ok.mp h
    dsimp only at h
    split_ifs at h
    cases h
    rfl

variable (hsim : Simulates target target' good lock)
include hsim

theorem recordDepth_lockstep
    {e' : Engine T'} {c : TypeId} (hlock : Lockstep lock e e')
    (h : recordDepth target σ e c = .ok e₁) :
    ∃ e₁', recordDepth target' σ e' c = .ok e₁' ∧ Lockstep lock e₁ e₁' := by
  unfold recordDepth at h ⊢
  rw [hsim.store _ _ hlock.target, hlock.active, hlock.memoDepths]
  cases hlimit : σ.expansionDepth with
  | none =>
    rw [hlimit] at h
    cases h
    exact ⟨e', rfl, hlock⟩
  | some limit =>
    rw [hlimit] at h
    obtain ⟨as, has, h⟩ := bind_eq_ok.mp h
    dsimp only at h ⊢
    rw [has]
    split_ifs at h with hlt
    cases h
    refine ⟨{ e' with
        memoDepths := e.memoDepths.insert c (1 + (as.filterMap e.memoDepths.get).foldl max 0) }, ?_,
      ⟨hlock.target, hlock.active, hlock.memo, rfl⟩⟩
    simp only [bind, Except.bind, if_neg hlt]
    rw [← hlock.active]
    rfl

/-- A walk that comes to its end over the first universe comes to its end over the second. -/
theorem walk_carries
    (hsub : ∀ σ b, Carries good lock (sub σ b) (sub' σ b)) {n : ℕ}
    {stack : List (TypeId × Bool)} {entered entered₁ : List TypeId}
    (h : walk target sub σ n e stack entered = some (.ok (), e₁, entered₁)) (hgood : good e₁.target) :
    good e.target ∧ ∀ e', Lockstep lock e e' → ∃ e₁',
      walk target' sub' σ n e' stack entered = some (.ok (), e₁', entered₁) ∧
        Lockstep lock e₁ e₁' := by
  induction n generalizing e stack entered with
  | zero => cases h
  | succ n ih =>
    obtain _ | ⟨⟨c, finish⟩, rest⟩ := stack
    · cases h
      exact ⟨hgood, fun e' hlock => ⟨e', rfl, hlock⟩⟩
    rw [walk] at h
    by_cases hm : (e.memo.get c).isSome = true
    · rw [if_pos hm] at h
      obtain ⟨hback, hforth⟩ := ih h
      refine ⟨hback, fun e' hlock => ?_⟩
      obtain ⟨e₁', hwalk, hlock₁⟩ := hforth e' hlock
      refine ⟨e₁', ?_, hlock₁⟩
      rw [walk, hlock.memo, if_pos hm, hwalk]
    rw [if_neg hm] at h
    cases finish with
    | true =>
      rw [if_pos rfl] at h
      cases hrecord : recordDepth target σ e c with
      | error error =>
        rw [hrecord] at h
        cases h
      | ok noted =>
        rw [hrecord] at h
        dsimp only at h
        have hcarries := Carries.assemble (σ := σ) hsim hsub c
        cases hcall : assemble target sub σ c noted with
        | none =>
          rw [hcall] at h
          cases h
        | some p =>
          rw [hcall] at h
          obtain ⟨_ | r, e₂⟩ := p
          · cases h
          · obtain ⟨hback, hforth⟩ := ih h
            have hnoted := hcarries.back noted r e₂ hcall hback
            rw [recordDepth_target hrecord] at hnoted
            refine ⟨hnoted, fun e' hlock => ?_⟩
            obtain ⟨noted', hrecord', hlockn⟩ := recordDepth_lockstep hsim hlock hrecord
            obtain ⟨e₂', hcall', hlock₂⟩ := hcarries.forth noted noted' r e₂ hlockn hcall hback
            have hlock₃ : Lockstep lock
                { e₂ with active := e₂.active.erase c, memo := e₂.memo.insert c r }
                { e₂' with active := e₂'.active.erase c, memo := e₂'.memo.insert c r } := by
              refine ⟨hlock₂.target, ?_, ?_, hlock₂.memoDepths⟩
              · dsimp only
                rw [hlock₂.active]
              · dsimp only
                rw [hlock₂.memo]
            obtain ⟨e₁', hwalk, hlock₁⟩ := hforth _ hlock₃
            refine ⟨e₁', ?_, hlock₁⟩
            rw [walk, hlock.memo, if_neg hm, if_pos rfl, hrecord']
            dsimp only
            rw [hcall']
            exact hwalk
    | false =>
      rw [if_neg Bool.false_ne_true] at h
      by_cases hactive : c ∈ e.active
      · rw [if_pos hactive] at h
        cases h
      rw [if_neg hactive] at h
      cases hlimit : σ.expansionDepth.filter fun limit => limit ≤ e.active.card with
      | some limit =>
        rw [hlimit] at h
        cases h
      | none =>
        rw [hlimit] at h
        dsimp only at h
        cases hdeps : dependencies σ (target.inputStore e.target) (insert c e.active).card c with
        | error error =>
          rw [hdeps] at h
          cases h
        | ok children =>
          rw [hdeps] at h
          obtain ⟨hback, hforth⟩ := ih h
          refine ⟨hback, fun e' hlock => ?_⟩
          have hlock₂ : Lockstep lock { e with active := insert c e.active }
              { e' with active := insert c e'.active } := by
            refine ⟨hlock.target, ?_, hlock.memo, hlock.memoDepths⟩
            dsimp only
            rw [hlock.active]
          obtain ⟨e₁', hwalk, hlock₁⟩ := hforth _ hlock₂
          refine ⟨e₁', ?_, hlock₁⟩
          rw [walk, hlock.memo, if_neg hm, if_neg Bool.false_ne_true, hlock.active,
            if_neg hactive, hlimit]
          dsimp only
          rw [hsim.store _ _ hlock.target, hdeps]
          rw [hlock.active, hlock.memo] at hwalk
          exact hwalk

theorem substitute_carries (n : ℕ)
    (σ : SubstitutionInput) (a : TypeId) :
    Carries good lock (substitute target n σ a) (substitute target' n σ a) := by
  induction n generalizing σ a with
  | zero => exact ⟨fun e b e₁ h => (by cases h), fun e e' b e₁ _ h => (by cases h)⟩
  | succ n ih =>
    have hinv : ∀ {e e₁ : Engine T} {r : TypeId}, e.memo.get a = none →
        substitute target (n + 1) σ a e = some (.ok r, e₁) →
        ∃ after entered, walk target (substitute target n) σ n e [(a, false)] [] =
          some (.ok (), after, entered) ∧ after.memoized a = .ok r ∧
            e₁ = { after with active := after.active \ entered.toFinset } := by
      intro e e₁ r hm h
      simp only [substitute, hm] at h
      cases hwalk : walk target (substitute target n) σ n e [(a, false)] [] with
      | none =>
        rw [hwalk] at h
        cases h
      | some p =>
        rw [hwalk] at h
        obtain ⟨_ | ⟨⟩, after, entered⟩ := p
        · cases h
        · obtain ⟨hr, he⟩ := Prod.mk.inj (Option.some.inj h)
          exact ⟨after, entered, rfl, hr, he.symm⟩
    refine ⟨fun e r e₁ h hgood => ?_, fun e e' r e₁ hlock h hgood => ?_⟩
    · cases hm : e.memo.get a with
      | some r' =>
        simp only [substitute, hm] at h
        cases h
        exact hgood
      | none =>
        obtain ⟨after, entered, hwalk, -, rfl⟩ := hinv hm h
        exact (walk_carries hsim ih hwalk hgood).1
    · cases hm : e.memo.get a with
      | some r' =>
        simp only [substitute, hm] at h
        cases h
        refine ⟨e', ?_, hlock⟩
        simp only [substitute, hlock.memo, hm]
      | none =>
        obtain ⟨after, entered, hwalk, hr, rfl⟩ := hinv hm h
        obtain ⟨after', hwalk', hlock'⟩ := (walk_carries hsim ih hwalk hgood).2 e' hlock
        have hm' : e'.memo.get a = none := by rw [hlock.memo, hm]
        refine ⟨{ after' with active := after'.active \ entered.toFinset }, ?_,
          ⟨hlock'.target, ?_, hlock'.memo, hlock'.memoDepths⟩⟩
        · rw [substitute_walk hm' hwalk']
          have hr' : after'.memoized a = .ok r := by
            rw [← hr]
            unfold Engine.memoized
            rw [hlock'.memo]
          rw [← hr']
          rfl
        · dsimp only
          rw [hlock'.active]

end EtasFrontend.Types
