import EtasFrontend.Types.SubstitutionWalk

/-! Materializing substitution: the walk returns, and what it returns is the substituted tree. -/
namespace EtasFrontend.Types
open Lib Relation

variable {portable : GenericOwner → Bool} {S S' : TypeStore} {σ : SubstitutionInput}

/-! Replacements in a larger store. -/

theorem target_extends (h : S.Extends S') {a : TypeId} {ty : Ty} (ha : S.get a = some ty) :
    σ.target S' a ty = σ.target S a ty := by
  unfold SubstitutionInput.target SubstitutionInput.replacement
  rw [h.parameter a ty ha]

theorem needsList_extends (h : S.Extends S') {a : TypeId} {ty : Ty} (ha : S.get a = some ty) :
    needsList σ S' a = needsList σ S a := by
  simp only [needsList, ha, h.get a ty ha, target_extends h ha]

namespace SubstitutionInput.ValuesIn

theorem onlyVariables (h : σ.ValuesIn S) : σ.onlyVariables.ValuesIn S :=
  ⟨nofun, nofun, nofun, h.vars, nofun⟩

theorem get_target (h : σ.ValuesIn S) {a r : TypeId} {ty : Ty} (hr : σ.target S a ty = some r) :
    ∃ t, S.get r = some t := by
  have hreplace : σ.replacement S a ty = some r := (Option.filter_eq_some_iff.1 hr).1
  unfold replacement at hreplace
  split at hreplace
  · next r' hp =>
    cases hreplace
    obtain ⟨m, hm, hget⟩ := Option.bind_eq_some_iff.1 hp
    exact h.typeParameters m hm _ _ hget
  · split at hreplace
    · obtain ⟨m, hm, hget⟩ := Option.bind_eq_some_iff.1 hreplace
      exact h.canonicalParameters m hm _ _ hget
    · split at hreplace
      · split at hreplace
        · next m hm =>
          obtain ⟨k, -, hget⟩ := Option.bind_eq_some_iff.1 hreplace
          exact h.parameters m hm _ _ hget
        · obtain ⟨m, hm, hget⟩ := Option.bind_eq_some_iff.1 hreplace
          exact h.named m hm _ _ hget
      · obtain ⟨s, hs, hget⟩ := Option.bind_eq_some_iff.1 hreplace
        exact h.vars s hs _ _ hget
      · cases hreplace

end SubstitutionInput.ValuesIn

theorem onlyVariables_target_named (S : TypeStore) (a : TypeId) (name : NamedTypeRef) :
    σ.onlyVariables.target S a (.named name) = none := by
  unfold SubstitutionInput.target SubstitutionInput.replacement
  cases S.parameterIdentity a <;> simp [SubstitutionInput.onlyVariables]

theorem Needs.get (hc : S.Closed) (hv : σ.ValuesIn S) {a b : TypeId} (h : Needs σ S a b) :
    ∃ t, S.get b = some t := by
  unfold Needs needsList at h
  split at h
  · cases h
  · next ty hty =>
    split at h
    · next r hr =>
      split at h
      · cases h
      · cases List.mem_singleton.1 h
        exact hv.get_target hr
    · exact hc a ty hty b (List.mem_append_right _ h)

theorem Needs.component_or_follows {a b : TypeId} (h : Needs σ S a b) :
    Component S a b ∨ Follows σ S a b := by
  unfold Needs needsList at h
  split at h
  · cases h
  · next ty hty =>
    split at h
    · next r hr =>
      split at h
      · cases h
      · next hn =>
        cases List.mem_singleton.1 h
        exact .inr ⟨ty, hty, fun name he => hn name he, hr⟩
    · exact .inl ⟨ty, hty, List.mem_append_right _ h⟩

theorem CycleAt.of_cycle (hs : S.WellFormed) {root c : TypeId}
    (hr : ReflTransGen (Needs σ S) root c) (hc : TransGen (Needs σ S) c c) : CycleAt S σ root c := by
  rcases transGen_or_passes (fun _ _ => Needs.component_or_follows) hc with h | ⟨a, b, ha, hab, hb⟩
  · exact absurd h (hs c)
  · exact .here hr ha hab hb

theorem CycleAt.of_reaches {root root' c : TypeId} (hr : ReflTransGen (Needs σ S) root root')
    (h : CycleAt S σ root' c) : CycleAt S σ root c := by
  cases h with
  | here hc ha hab hb => exact .here (hr.trans hc) ha hab hb
  | inArgument ha h hr' hc => exact .inArgument (hr.trans ha) h hr' hc

/-- In `S'`, `r` is the type `a` of `S` with the replacements made. -/
def Good (S : TypeStore) (σ : SubstitutionInput) (S' : TypeStore) (a r : TypeId) : Prop :=
  ∃ t, Substituted S σ a t ∧ Unfolds S' r t

theorem Good.extend {S'' : TypeStore} (h : S'.Extends S'') {a r : TypeId} (hg : Good S σ S' a r) :
    Good S σ S'' a r := by
  obtain ⟨t, hs, hu⟩ := hg
  exact ⟨t, hs, hu.extend h⟩

/-- A node put together from good results. -/
theorem Good.of_node (hs : S.WellFormed) (hc : S.Closed) (hext : S.Extends S') {a r : TypeId}
    {ty ty' : Ty} {m : TypeId → TypeId} (h : S.get a = some ty) (hr : σ.target S a ty = none)
    (hgood : ∀ b ∈ ty.refs, Good S σ S' b (m b)) (hget : S'.get r = some ty')
    (hsame : (ty.mapParts id m).SameUpToBounds ty')
    (hnominal : S'.nominalIdentity r = S.nominalIdentity a)
    (hparameter : S'.parameterIdentity r = S.parameterIdentity a) : Good S σ S' a r := by
  classical
  -- the tree of an id of `S'`, where it has one
  let g : TypeId → TypeTree := fun x => if h : ∃ t, Unfolds S' x t then h.choose else .missing x
  have hg : ∀ {x t}, Unfolds S' x t → g x = t := by
    intro x t ht
    have hex : ∃ t, Unfolds S' x t := ⟨t, ht⟩
    have hx : g x = hex.choose := dif_pos hex
    exact hx.trans (hex.choose_spec.unique ht)
  have hcon : ∀ c ∈ ty.constructorRefs, Unfolds S c (g c) := by
    intro c hcm
    obtain ⟨tc, htc⟩ := hc a ty h c (List.mem_append_left _ hcm)
    obtain ⟨t, ht⟩ := exists_unfolds hs hc htc
    rwa [hg (ht.extend hext)]
  have hsub : ∀ b ∈ ty.refs, Substituted S σ b (g (m b)) ∧ Unfolds S' (m b) (g (m b)) := by
    intro b hb
    obtain ⟨t, hst, hut⟩ := hgood b hb
    rw [hg hut]
    exact ⟨hst, hut⟩
  have hnode : (ty.mapParts g (g ∘ m)).SameUpToBounds (ty'.mapRefs g) := by
    have hmap := hsame.map g
    rwa [Ty.mapRefs, Ty.mapParts_mapParts] at hmap
  have hcons : ty'.constructorRefs = ty.constructorRefs := by
    rw [hsame.constructorRefs, Ty.constructorRefs_mapParts, List.map_id]
  have hfacts : S'.facts r ty' = S.facts a ty := by
    rw [← hext.facts h fun c hcm => hc a ty h c (List.mem_append_left _ hcm)]
    unfold TypeStore.facts
    rw [hnominal, hparameter, hcons, hext.nominal a ty h, hext.parameter a ty h]
  refine ⟨_, .node g (g ∘ m) h hr hcon (fun b hb => (hsub b hb).1) hnode, ?_⟩
  rw [← hfacts]
  refine .node g hget fun b hb => ?_
  rcases List.mem_append.1 hb with hb | hb
  · exact (hcon b (hcons ▸ hb)).extend hext
  · rw [hsame.mem_refs, Ty.refs_mapParts] at hb
    obtain ⟨b', hb', rfl⟩ := List.mem_map.1 hb
    exact (hsub b' hb').2

/-- What a call on a type leaves behind. -/
structure Outcome (portable : GenericOwner → Bool) (S : TypeStore) (σ : SubstitutionInput)
    (before after : TypeInterner) (a : TypeId) (result : Except TypeSubstitutionError TypeId) :
    Prop where
  inv : InternerInv portable after
  ext : before.store.Extends after.store
  good : ∀ r, result = .ok r → Good S σ after.store a r
  cycle : ∀ error, result = .error error → ∃ c, error = .cyclicType c ∧ CycleAt S σ a c

abbrev Sub := SubstitutionInput → TypeId → EngineM TypeInterner TypeId

/-- What the walk relies on when it calls itself: finished types are looked up, and arguments of
parameters are substituted. -/
structure Calls (portable : GenericOwner → Bool) (S : TypeStore) (σ : SubstitutionInput)
    (sub : Sub) : Prop where
  memo : ∀ engine a r, engine.memo.get a = some r → Returns (sub σ a) engine r
  argument : ∀ engine : Engine TypeInterner, ∀ a r name, InternerInv portable engine.target →
    S.Extends engine.target.store → S.get a = some (.named name) →
    σ.target S a (.named name) = some r → σ.vars ≠ none →
    ∃ result after, sub σ.onlyVariables r engine.inner = some (result, after) ∧
      Outcome portable S σ.onlyVariables engine.target after.target r result

section
variable {engine : Engine TypeInterner} {sub : Sub} {a r : TypeId} {ty : Ty}

theorem engineRequire_returns (h : engine.target.store.get a = some ty) :
    Returns (engineRequire .materialize a) engine ty := by
  have hrequire : requireType engine.target.store a = .ok ty := by simp [requireType, h]
  exact congrArg (fun x => some (x, engine)) hrequire

theorem identities_of_node {store : TypeStore} (hi : StoreInv portable store)
    (h : store.get a = some ty) (hleaf : ty.isLeaf = false) :
    store.nominalIdentity a = none ∧ store.parameterIdentity a = none := by
  constructor
  · cases hk : store.nominalIdentity a with
    | none => rfl
    | some key =>
      obtain ⟨t, ht, hm⟩ := hi.nominal a key hk
      cases h.symm.trans ht
      cases ty <;> first | cases hm | cases hleaf
  · cases hk : store.parameterIdentity a with
    | none => rfl
    | some key =>
      obtain ⟨-, name, ht⟩ := hi.parameter a key hk
      cases h.symm.trans ht
      cases hleaf

theorem engineMaterialize_spec (hs : S.WellFormed) (hc : S.Closed)
    (hi : InternerInv portable engine.target) (hext : S.Extends engine.target.store)
    {m : TypeId → TypeId} (h : S.get a = some ty) (hleaf : ty.isLeaf = false)
    (hr : σ.target S a ty = none)
    (hgood : ∀ b ∈ ty.refs, Good S σ engine.target.store b (m b)) :
    ∃ r after, engineMaterialize .materialize a (ty.mapParts id m) engine =
        some (.ok r, { engine with target := after }) ∧
      Outcome portable S σ engine.target after a (.ok r) := by
  have hget := hext.get a ty h
  unfold engineMaterialize
  rw [(engineRequire_returns hget).bind_apply]
  split
  · next heq =>
    refine ⟨a, engine.target, rfl, hi, .refl _, fun r hr' => ?_, nofun⟩
    cases hr'
    exact .of_node hs hc hext h hr hgood hget (.inl heq) (hext.nominal a ty h)
      (hext.parameter a ty h)
  · next hne =>
    obtain ⟨hstored, hfree⟩ := hi.intern_spec (ty.mapParts id m)
    have hstep := TypeStore.Extends.intern engine.target (ty.mapParts id m)
    refine ⟨_, (engine.target.intern (ty.mapParts id m)).2, rfl, hi.intern _, hstep, ?_, nofun⟩
    intro r hr'
    cases hr'
    have htuple : ty.mapParts id m ≠ .tuple [] := by
      intro he
      cases ty with
      | tuple elements =>
        cases elements with
        | nil => exact hne rfl
        | cons e rest => cases he
      | resourceHandle r => cases r <;> cases he
      | _ => cases he
    obtain ⟨hn, hp⟩ := identities_of_node hi.store hget hleaf
    rw [hext.nominal a ty h] at hn
    rw [hext.parameter a ty h] at hp
    obtain ⟨hn', hp'⟩ := TypeStore.isCanonical_eq_false.1 hfree
    exact .of_node hs hc (hext.trans hstep) h hr (fun b hb => (hgood b hb).extend hstep) hstored
      (sameUpToBounds_canonicalType htuple) (hn'.trans hn.symm) (hp'.trans hp.symm)

theorem substituteArgument_spec (hs : S.WellFormed) (hc : S.Closed) (hv : σ.ValuesIn S)
    (hsub : Calls portable S σ sub) (hi : InternerInv portable engine.target)
    (hext : S.Extends engine.target.store) {name : NamedTypeRef}
    (h : S.get a = some (.named name)) (hr : σ.target S a (.named name) = some r) :
    ∃ result after, substituteArgument .materialize sub σ r engine =
        some (result, { engine with target := after }) ∧
      Outcome portable S σ engine.target after a result := by
  obtain ⟨t, ht⟩ := hv.get_target hr
  unfold substituteArgument
  rw [(engineRequire_returns (hext.get r t ht)).bind_apply]
  cases hvars : σ.vars with
  | none =>
    refine ⟨.ok r, engine.target, rfl, hi, .refl _, fun r' hr' => ?_, nofun⟩
    cases hr'
    obtain ⟨tree, htree⟩ := exists_unfolds hs hc ht
    exact ⟨tree, .verbatim h hr hvars htree, htree.extend hext⟩
  | some vars =>
    have hne : σ.vars ≠ none := by simp [hvars]
    obtain ⟨result, after, hcall, ho⟩ := hsub.argument engine a r name hi hext h hr hne
    have heval : substituteInner sub σ r engine =
        some (result, { engine with target := after.target }) := by
      simp only [substituteInner, hcall]
    refine ⟨result, after.target, heval, ho.inv, ho.ext, fun r' hr' => ?_, fun error he => ?_⟩
    · obtain ⟨tree, hst, hut⟩ := ho.good r' hr'
      exact ⟨tree, .argument h hr hne hst, hut⟩
    · obtain ⟨c, rfl, hcycle⟩ := ho.cycle error he
      exact ⟨c, rfl, .inArgument .refl h hr hcycle⟩

theorem assemble_eq (hext : S.Extends engine.target.store) (h : S.get a = some ty) :
    assemble .materialize sub σ a engine =
      match σ.target S a ty with
      | some replacement => replace .materialize sub σ ty replacement engine
      | none => rebuild .materialize sub σ a ty engine := by
  unfold assemble
  rw [(engineRequire_returns (hext.get a ty h)).bind_apply, ← target_extends hext h]
  rfl

theorem assemble_spec (hs : S.WellFormed) (hc : S.Closed) (hv : σ.ValuesIn S)
    (hrows : σ.effectRows = none) (hsub : Calls portable S σ sub)
    (hi : InternerInv portable engine.target) (hext : S.Extends engine.target.store)
    (hmemo : ∀ b r, engine.memo.get b = some r → Good S σ engine.target.store b r)
    (h : S.get a = some ty) (hneeds : ∀ b, Needs σ S a b → ∃ r, engine.memo.get b = some r) :
    ∃ result after, assemble .materialize sub σ a engine =
        some (result, { engine with target := after }) ∧
      Outcome portable S σ engine.target after a result := by
  rw [assemble_eq hext h]
  cases hr : σ.target S a ty with
  | some r =>
    by_cases hn : ∃ name, ty = .named name
    · obtain ⟨name, rfl⟩ := hn
      exact substituteArgument_spec hs hc hv hsub hi hext h hr
    · have hn' : ∀ name, ty ≠ .named name := fun name he => hn ⟨name, he⟩
      obtain ⟨r', hr'⟩ := hneeds r (by simp [Needs, follows_of_target h hn' hr])
      refine ⟨.ok r', engine.target, ?_, hi, .refl _, fun r'' hr'' => ?_, fun _ he => by cases he⟩
      · have hcall : sub σ r engine = some (.ok r', engine) := hsub.memo engine r r' hr'
        simpa only [replace] using hcall
      · cases hr''
        obtain ⟨tree, hst, hut⟩ := hmemo r r' hr'
        exact ⟨tree, .follow h hn' hr hst, hut⟩
  | none =>
    -- the results of the components are all in the table
    let m : TypeId → TypeId := fun b => (engine.memo.get b).getD b
    have hm : ∀ b ∈ ty.refs, engine.memo.get b = some (m b) := by
      intro b hb
      obtain ⟨r, hb'⟩ := hneeds b (by rwa [Needs, needsList_of_none h hr])
      simp [m, hb']
    have hgood : ∀ b ∈ ty.refs, Good S σ engine.target.store b (m b) :=
      fun b hb => hmemo b _ (hm b hb)
    have hnode : Returns (assembleNode .materialize sub σ ty) engine _ :=
      assembleNode_returns .materialize hrows fun b hb => hsub.memo engine b _ (hm b hb)
    simp only [rebuild]
    rw [hnode.bind_apply]
    cases hleaf : ty.isLeaf with
    | false =>
      obtain ⟨r, after, hcall, ho⟩ := engineMaterialize_spec hs hc hi hext h hleaf hr hgood
      exact ⟨.ok r, after, hcall, ho⟩
    | true =>
      refine ⟨.ok a, engine.target, rfl, hi, .refl _, fun r' hr' => ?_, fun _ he => by cases he⟩
      cases hr'
      have hsame : ty.mapParts id m = ty := by
        cases ty with
        | resourceHandle r => cases hleaf
        | _ => first | rfl | cases hleaf
      exact .of_node hs hc hext h hr hgood (hext.get a ty h) (.inl hsame.symm)
        (hext.nominal a ty h) (hext.parameter a ty h)

end

/-- What holds between two turns of the walk from `root`. -/
structure WalkInv (portable : GenericOwner → Bool) (S : TypeStore) (σ : SubstitutionInput)
    (root : TypeId) (before : TypeInterner) (engine : Engine TypeInterner)
    (stack : List (TypeId × Bool)) (entered : List TypeId) : Prop where
  inv : InternerInv portable engine.target
  ext : before.store.Extends engine.target.store
  memo : ∀ a r, engine.memo.get a = some r → Good S σ engine.target.store a r
  present : ∀ x ∈ stack, ∃ ty, S.get x.1 = some ty
  walking : Walking S σ root engine stack entered

/-- What holds when the walk ends. -/
structure WalkEnd (portable : GenericOwner → Bool) (S : TypeStore) (σ : SubstitutionInput)
    (root : TypeId) (before : TypeInterner) (result : Except TypeSubstitutionError Unit)
    (engine : Engine TypeInterner) (entered : List TypeId) : Prop where
  inv : InternerInv portable engine.target
  ext : before.store.Extends engine.target.store
  memo : ∀ a r, engine.memo.get a = some r → Good S σ engine.target.store a r
  entered : ∀ a ∈ engine.active, a ∈ entered
  done : result = .ok () → (engine.memo.get root).isSome
  cycle : ∀ error, result = .error error → ∃ c, error = .cyclicType c ∧ CycleAt S σ root c

section
variable {root current r : TypeId} {before : TypeInterner} {engine : Engine TypeInterner}
  {finish : Bool} {rest : List (TypeId × Bool)} {entered : List TypeId}

theorem WalkInv.skip (h : WalkInv portable S σ root before engine ((current, finish) :: rest) entered)
    (hm : (engine.memo.get current).isSome) :
    WalkInv portable S σ root before engine rest entered :=
  ⟨h.inv, h.ext, h.memo, fun x hx => h.present x (List.mem_cons_of_mem _ hx), h.walking.skip hm⟩

theorem WalkInv.finished
    (h : WalkInv portable S σ root before engine ((current, true) :: rest) entered)
    {after : TypeInterner} (ho : Outcome portable S σ engine.target after current (.ok r)) :
    WalkInv portable S σ root before
      ⟨after, engine.active.erase current, engine.memo.insert current r, engine.memoDepths⟩ rest
      entered := by
  refine ⟨ho.inv, h.ext.trans ho.ext, fun a r' hr' => ?_,
    fun x hx => h.present x (List.mem_cons_of_mem _ hx), h.walking.finished r after⟩
  dsimp only at hr' ⊢
  rw [Map.get_insert] at hr'
  split at hr'
  · next he =>
    cases hr'
    exact he ▸ ho.good r rfl
  · exact (h.memo a r' hr').extend ho.ext

theorem WalkInv.enter (hc : S.Closed) (hv : σ.ValuesIn S)
    (h : WalkInv portable S σ root before engine ((current, false) :: rest) entered)
    (hm : engine.memo.get current = none) (ha : current ∉ engine.active) :
    WalkInv portable S σ root before { engine with active := insert current engine.active }
      ((needsList σ S current).map (·, false) ++ (current, true) :: rest) (entered ++ [current]) := by
  refine ⟨h.inv, h.ext, h.memo, fun x hx => ?_, h.walking.enter hm ha⟩
  rcases List.mem_append.1 hx with hx | hx
  · obtain ⟨b, hb, rfl⟩ := List.mem_map.1 hx
    exact Needs.get hc hv hb
  · rcases List.mem_cons.1 hx with rfl | hx
    · exact h.present (current, false) List.mem_cons_self
    · exact h.present x (List.mem_cons_of_mem _ hx)

theorem WalkInv.ended (h : WalkInv portable S σ root before engine [] entered) :
    WalkEnd portable S σ root before (.ok ()) engine entered :=
  ⟨h.inv, h.ext, h.memo, h.walking.entered, fun _ => h.walking.stack.done_of_nil, nofun⟩

theorem WalkInv.cyclic (hs : S.WellFormed)
    (h : WalkInv portable S σ root before engine ((current, false) :: rest) entered)
    (ha : current ∈ engine.active) :
    WalkEnd portable S σ root before (.error (.cyclicType current)) engine entered := by
  have hcycle := h.walking.stack.cycle ha
  refine ⟨h.inv, h.ext, h.memo, h.walking.entered, nofun, fun error he => ?_⟩
  cases he
  exact ⟨current, rfl, .of_cycle hs (h.walking.stack.reach) hcycle⟩

/-- With enough turns the walk ends, and as described. -/
theorem walk_spec {sub : Sub} (hs : S.WellFormed) (hc : S.Closed) (hv : σ.ValuesIn S)
    (hrows : σ.effectRows = none) (hdepth : σ.expansionDepth = none)
    (hsub : Calls portable S σ sub) (hbase : S.Extends before.store) {n : ℕ}
    {stack : List (TypeId × Bool)}
    (h : WalkInv portable S σ root before engine stack entered)
    (hn : stack.length + remaining S σ engine < n) :
    ∃ result engine' entered',
      walk .materialize sub σ n engine stack entered = some (result, engine', entered') ∧
      WalkEnd portable S σ root before result engine' entered' := by
  induction n generalizing engine stack entered with
  | zero => omega
  | succ n ih =>
    match stack, h, hn with
    | [], h, _ => exact ⟨_, _, _, rfl, h.ended⟩
    | (current, finish) :: rest, h, hn =>
      rw [List.length_cons] at hn
      obtain ⟨ty, hty⟩ : ∃ ty, S.get current = some ty := h.present _ List.mem_cons_self
      have hext := hbase.trans h.ext
      rw [walk]
      split
      · next hm => exact ih (h.skip hm) (by omega)
      · next hm =>
        have hnone : engine.memo.get current = none := by simpa using hm
        split
        · next hf =>
          cases hf
          have hneeds : ∀ b, Needs σ S current b → ∃ r, engine.memo.get b = some r := by
            intro b hb
            rcases h.walking.stack.supplied.1 rfl b hb with hb | hb
            · exact Option.isSome_iff_exists.1 hb
            · cases hb
          obtain ⟨result, after, hcall, ho⟩ := assemble_spec hs hc hv hrows hsub h.inv hext h.memo
            hty hneeds
          simp only [recordDepth, hdepth, hcall]
          cases result with
          | error error =>
            refine ⟨_, _, _, rfl, ho.inv, h.ext.trans ho.ext, fun a r hr => ?_, h.walking.entered, nofun,
              fun error' he => ?_⟩
            · exact (h.memo a r hr).extend ho.ext
            · cases he
              obtain ⟨c, rfl, hcycle⟩ := ho.cycle error rfl
              exact ⟨c, rfl, hcycle.of_reaches (h.walking.stack.reach)⟩
          | ok r =>
            have hmeasure : remaining S σ ⟨after, engine.active.erase current,
                engine.memo.insert current r, engine.memoDepths⟩ ≤ remaining S σ engine :=
              remaining_finish engine r after
            have hless : rest.length + remaining S σ ⟨after, engine.active.erase current,
                engine.memo.insert current r, engine.memoDepths⟩ < n := by omega
            exact ih (h.finished ho) hless
        · next hf =>
          cases Bool.eq_false_iff.2 hf
          split
          · next ha => exact ⟨_, _, _, rfl, h.cyclic hs ha⟩
          · next ha =>
            have hdeps : dependencies σ (SubstitutionTarget.materialize.inputStore engine.target)
                (insert current engine.active).card current = .ok (needsList σ S current) :=
              (dependencies_eq hrows _ _ (hext.get current ty hty)).trans
                (congrArg _ (needsList_extends hext hty))
            have hmeasure := remaining_enter (σ := σ) hty ha hnone
            simp only [hdepth, Option.filter_none, hdeps]
            refine ih (h.enter hc hv hnone ha) ?_
            simp only [List.length_append, List.length_map, List.length_cons]
            omega

end

/-- An engine between two calls. -/
structure Idle (portable : GenericOwner → Bool) (S : TypeStore) (σ : SubstitutionInput)
    (engine : Engine TypeInterner) : Prop where
  inv : InternerInv portable engine.target
  ext : S.Extends engine.target.store
  active : engine.active = ∅
  memo : ∀ a r, engine.memo.get a = some r → Good S σ engine.target.store a r

theorem Idle.fresh {interner : TypeInterner} (hi : InternerInv portable interner)
    (hext : S.Extends interner.store) : Idle portable S σ (.fresh interner) :=
  ⟨hi, hext, rfl, nofun⟩

/-- A bound for the recursion of a call: its own walk, and those for arguments of parameters. -/
def substitutionBound (σ : SubstitutionInput) (S : TypeStore) : ℕ :=
  walkBound σ S + walkBound σ.onlyVariables S + 3

section
variable {engine : Engine TypeInterner} {a : TypeId} {ty : Ty}

theorem WalkInv.start (h : Idle portable S σ engine) (ha : S.get a = some ty) :
    WalkInv portable S σ a engine.target engine [(a, false)] [] where
  inv := h.inv
  ext := .refl _
  memo := h.memo
  present x hx := by
    cases List.mem_singleton.1 hx
    exact ⟨ty, ha⟩
  walking := .start h.active

/-- One call, given what it relies on for the calls it makes. -/
theorem substitute_of_calls (hs : S.WellFormed) (hc : S.Closed) (hv : σ.ValuesIn S)
    (hrows : σ.effectRows = none) (hdepth : σ.expansionDepth = none) {n : ℕ}
    (hn : walkBound σ S ≤ n) (hsub : Calls portable S σ (substitute .materialize n))
    (h : Idle portable S σ engine) (ha : S.get a = some ty) :
    ∃ result after, substitute .materialize (n + 1) σ a engine = some (result, after) ∧
      Outcome portable S σ engine.target after.target a result ∧ Idle portable S σ after := by
  cases hm : engine.memo.get a with
  | some r =>
    refine ⟨.ok r, engine, substitute_memo hm, ⟨h.inv, .refl _, fun r' hr' => ?_, nofun⟩, h⟩
    cases hr'
    exact h.memo a r hm
  | none =>
    obtain ⟨result, after, entered, hwalk, hend⟩ := walk_spec hs hc hv hrows hdepth hsub h.ext
      (WalkInv.start h ha) (by simpa using remaining_lt engine hn)
    have hactive : after.active \ entered.toFinset = ∅ :=
      Finset.sdiff_eq_empty_iff_subset.2 fun b hb => List.mem_toFinset.2 (hend.entered b hb)
    refine ⟨_, _, substitute_walk hm hwalk, ⟨hend.inv, hend.ext, fun r hr => ?_, fun error he => ?_⟩,
      hend.inv, h.ext.trans hend.ext, hactive, hend.memo⟩
    · cases result with
      | error error => cases hr
      | ok _ =>
        obtain ⟨r', hr'⟩ := Option.isSome_iff_exists.1 (hend.done rfl)
        simp only [Except.bind, Engine.memoized, hr'] at hr
        cases hr
        exact hend.memo a r hr'
    · cases result with
      | error error =>
        cases he
        exact hend.cycle error rfl
      | ok _ =>
        obtain ⟨r', hr'⟩ := Option.isSome_iff_exists.1 (hend.done rfl)
        simp [Except.bind, Engine.memoized, hr'] at he

theorem calls_onlyVariables (n : ℕ) :
    Calls portable S σ.onlyVariables (substitute .materialize (n + 1)) where
  memo _ _ _ hm := substitute_memo hm
  argument _ a r name _ _ _ hr := by
    rw [onlyVariables_target_named] at hr
    cases hr

theorem calls_all (hs : S.WellFormed) (hc : S.Closed) (hv : σ.ValuesIn S)
    (hdepth : σ.expansionDepth = none) {n : ℕ} (hn : walkBound σ.onlyVariables S ≤ n) :
    Calls portable S σ (substitute .materialize (n + 2)) where
  memo _ _ _ hm := substitute_memo hm
  argument engine a r name hi hext _ hr _ := by
    obtain ⟨t, ht⟩ := hv.get_target hr
    obtain ⟨result, after, hcall, ho, -⟩ := substitute_of_calls hs hc hv.onlyVariables rfl hdepth
      (hn.trans (Nat.le_succ n)) (calls_onlyVariables n) (Idle.fresh hi hext) ht
    exact ⟨result, after, hcall, ho⟩

/-- A call with a large enough bound returns, on any engine between two calls. -/
theorem substitute_outcome (hs : S.WellFormed) (hc : S.Closed) (hv : σ.ValuesIn S)
    (hrows : σ.effectRows = none) (hdepth : σ.expansionDepth = none)
    (h : Idle portable S σ engine) (ha : S.get a = some ty) {n : ℕ}
    (hn : substitutionBound σ S ≤ n) :
    ∃ result after, substitute .materialize n σ a engine = some (result, after) ∧
      Outcome portable S σ engine.target after.target a result ∧ Idle portable S σ after := by
  unfold substitutionBound at hn
  obtain ⟨k, rfl⟩ : ∃ k, n = k + 2 + 1 := ⟨n - 3, by omega⟩
  have hcalls : Calls portable S σ (substitute .materialize (k + 2)) :=
    calls_all hs hc hv hdepth (by omega)
  exact substitute_of_calls hs hc hv hrows hdepth (by omega) hcalls h ha

theorem substitute_missing (hdepth : σ.expansionDepth = none) {interner : TypeInterner}
    (ha : interner.store.get a = none) (n : ℕ) :
    ∃ after, substitute .materialize (n + 2) σ a (.fresh interner) =
      some (.error (.missingType a), after) ∧ after.target = interner := by
  have hdeps : ∀ active, dependencies σ (SubstitutionTarget.materialize.inputStore interner)
      active a = .error (.missingType a) := by
    intro active
    simp only [dependencies, requireType, SubstitutionTarget.materialize, ha]
    rfl
  have hwalk : walk .materialize (substitute .materialize (n + 1)) σ (n + 1) (.fresh interner)
      [(a, false)] [] =
      some (.error (.missingType a), ⟨interner, insert a ∅, ∅, ∅⟩, [a]) := by
    simp [walk, Engine.fresh, hdepth, hdeps]
  exact ⟨_, substitute_walk rfl hwalk, rfl⟩

/-- Materializing substitution on a new engine: it returns, what it returns is the substituted
tree, the store it started from is kept, and it fails only on an absent id or where a replacement
is part of a cycle. -/
theorem substitute_correct {interner : TypeInterner} (hi : InternerInv portable interner)
    (hs : interner.store.WellFormed) (hc : interner.store.Closed)
    (hv : σ.ValuesIn interner.store) (hrows : σ.effectRows = none)
    (hdepth : σ.expansionDepth = none) (a : TypeId) {n : ℕ}
    (hn : substitutionBound σ interner.store ≤ n) :
    ∃ result after, substitute .materialize n σ a (.fresh interner) = some (result, after) ∧
      interner.store.Extends after.target.store ∧
      (∀ r, result = .ok r →
        ∃ tree, Substituted interner.store σ a tree ∧ Unfolds after.target.store r tree) ∧
      ∀ error, result = .error error →
        (error = .missingType a ∧ interner.store.get a = none) ∨
          ∃ c, error = .cyclicType c ∧ CycleAt interner.store σ a c := by
  cases ha : interner.store.get a with
  | none =>
    unfold substitutionBound at hn
    obtain ⟨k, rfl⟩ : ∃ k, n = k + 2 := ⟨n - 2, by omega⟩
    obtain ⟨after, hrun, htarget⟩ := substitute_missing hdepth ha k
    refine ⟨_, after, hrun, htarget ▸ .refl _, nofun, fun error he => ?_⟩
    cases he
    exact .inl ⟨rfl, rfl⟩
  | some ty =>
    obtain ⟨result, after, hrun, ho, -⟩ := substitute_outcome hs hc hv hrows hdepth
      (Idle.fresh hi (.refl _)) ha hn
    exact ⟨result, after, hrun, ho.ext, ho.good, fun error he => .inr (ho.cycle error he)⟩

end

/-! A parameter whose argument is a variable that has a solution. -/

/-- `T`, two variables, the boolean type and the list of `T`. -/
def chainInterner : TypeInterner :=
  [.named ⟨"T", none⟩, .var 0, .var 1, .primitive .bool, .list 0].foldl
    (fun interner ty => (interner.intern ty).2) TypeInterner.new

/-- `T` stands for the first variable, that for the second, and that for the boolean type. -/
def chainInput : SubstitutionInput :=
  .materializing (Map.insert ∅ "T" 1) (some ((Substitution.empty.insert 0 2).insert 1 3))

theorem chainInterner_inv : InternerInv (fun _ => true) chainInterner :=
  ((((InternerInv.new.intern _).intern _).intern _).intern _).intern _

theorem chainInterner_lt :
    ∀ e ∈ chainInterner.store.allTypes.zipIdx, ∀ b ∈ e.1.children, b < e.2 := by
  decide

theorem chainInput_valuesIn : chainInput.ValuesIn chainInterner.store where
  named m hm k r hr := by
    cases hm
    rw [Map.get_insert] at hr
    split_ifs at hr
    · cases hr
      exact ⟨_, rfl⟩
    · cases hr
  parameters := nofun
  canonicalParameters := nofun
  vars s hs v r hr := by
    cases hs
    rw [Substitution.get_insert, Substitution.get_insert] at hr
    split_ifs at hr
    · cases hr
      exact ⟨_, rfl⟩
    · cases hr
      exact ⟨_, rfl⟩
    · cases hr
  typeParameters := nofun

theorem substitute_correct_list :
    ∃ after, substitute .materialize 40 chainInput 4 (.fresh chainInterner) =
        some (.ok 5, after) ∧
      ∃ tree, Substituted chainInterner.store chainInput 4 tree ∧
        Unfolds after.target.store 5 tree := by
  have hbound : substitutionBound chainInput chainInterner.store ≤ 40 := by decide
  obtain ⟨result, after, hrun, -, hok, -⟩ := substitute_correct chainInterner_inv
    (TypeStore.wellFormed_of_lt chainInterner_lt) (TypeStore.closed_of_lt chainInterner_lt)
    chainInput_valuesIn rfl rfl 4 hbound
  have heval : ∃ after, substitute .materialize 40 chainInput 4 (.fresh chainInterner) =
      some (.ok 5, after) := ⟨_, rfl⟩
  obtain ⟨after', heval⟩ := heval
  cases hrun.symm.trans heval
  exact ⟨after, heval, hok 5 rfl⟩

/-- The argument of `T` is not inserted as it stands: its variable is replaced, and the solution
of that once more. -/
theorem substitute_follows_variables :
    chainInput.target chainInterner.store 0 (.named ⟨"T", none⟩) = some 1 ∧
    ∃ after tree, substitute .materialize 40 chainInput 0 (.fresh chainInterner) =
        some (.ok 3, after) ∧
      Unfolds chainInterner.store 1 tree ∧ ¬ Unfolds after.target.store 3 tree := by
  have hvar : chainInterner.store.get 1 = some (.var 0) := rfl
  have hbool : chainInterner.store.get 3 = some (.primitive .bool) := rfl
  refine ⟨rfl, _, _, rfl, .node .missing hvar nofun, fun h => ?_⟩
  cases h.unique (.node .missing hbool nofun)

end EtasFrontend.Types
