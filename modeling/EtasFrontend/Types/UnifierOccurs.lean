import EtasFrontend.Types.UnifierGraph

/-! What `resolve`, the occurs check and `bind` compute, as statements about the graph. -/
namespace EtasFrontend.Types
open Lib Relation

variable {store : TypeStore}

/-! `resolve`. -/

/-- `ty` is not a bound variable. -/
def Resolved (store : TypeStore) (lookup : TypeVarId → Option TypeId) (ty : TypeId) : Prop :=
  ∀ b, ¬ Binding store lookup ty b

/-- The bindings lead from `ty` to `ty'`, where they end. -/
def ResolvesTo (store : TypeStore) (lookup : TypeVarId → Option TypeId) (ty ty' : TypeId) : Prop :=
  ReflTransGen (Binding store lookup) ty ty' ∧ Resolved store lookup ty'

variable {lookup : TypeVarId → Option TypeId}

theorem Binding.unique {a b c : TypeId} (hb : Binding store lookup a b)
    (hc : Binding store lookup a c) : b = c := by
  obtain ⟨v, hv, hb⟩ := hb
  obtain ⟨w, hw, hc⟩ := hc
  rw [hv] at hw
  cases hw
  rw [hb] at hc
  exact Option.some.inj hc

theorem ResolvesTo.reaches {ty ty' : TypeId} (h : ResolvesTo store lookup ty ty') :
    Reaches store lookup ty ty' :=
  ReflTransGen.mono (fun _ _ => Or.inr) _ _ h.1

/-- What a result of `resolve` says about the bindings. -/
def ResolveOutcome (store : TypeStore) (lookup : TypeVarId → Option TypeId) (ty : TypeId) :
    Except UnifyError TypeId → Prop
  | .ok ty' => ResolvesTo store lookup ty ty'
  | .error _ => ¬ Acyclic (Binding store lookup)

/-- The loop ends at the end of the chain of bindings, or has met a variable twice. `dom` holds
every bound variable; what is left of it bounds the remaining rounds. -/
private theorem resolveLoop_spec {dom : List TypeVarId} (hdom : ∀ v, (lookup v).isSome → v ∈ dom)
    (n : ℕ) (visited : List TypeVarId) (ty : TypeId) (hn : dom.length + 1 ≤ n + visited.length)
    (hd : visited.Nodup) (hsub : visited ⊆ dom)
    (hpast : ∀ v ∈ visited, ∃ a, store.get a = some (.var v) ∧
      TransGen (Binding store lookup) a ty) :
    ResolveOutcome store lookup ty (resolveLoop store lookup n visited ty) := by
  induction n generalizing visited ty with
  | zero =>
    have := (List.subperm_of_subset hd hsub).length_le
    omega
  | succ n ih =>
    unfold resolveLoop
    split
    next var hty =>
      split
      next next hnext =>
        have hstep : Binding store lookup ty next := ⟨var, hty, hnext⟩
        split_ifs with hvis
        · obtain ⟨a, ha, hpath⟩ := hpast var hvis
          intro hacyc
          obtain ⟨b, hab, hbt⟩ := TransGen.head'_iff.mp hpath
          have hb : b = next := Binding.unique hab ⟨var, ha, hnext⟩
          subst hb
          exact hacyc ty (.head' hstep hbt)
        · have hin : var :: visited ⊆ dom :=
            List.cons_subset.mpr ⟨hdom var (by simp [hnext]), hsub⟩
          have hpast' : ∀ v ∈ var :: visited, ∃ a, store.get a = some (.var v) ∧
              TransGen (Binding store lookup) a next := by
            intro v hv
            rcases List.mem_cons.mp hv with rfl | hv
            · exact ⟨ty, hty, .single hstep⟩
            · obtain ⟨a, ha, hpath⟩ := hpast v hv
              exact ⟨a, ha, hpath.tail hstep⟩
          have hlen : dom.length + 1 ≤ n + (var :: visited).length := by
            rw [List.length_cons]
            omega
          have := ih (var :: visited) next hlen (hd.cons hvis) hin hpast'
          cases hr : resolveLoop store lookup n (var :: visited) next with
          | ok ty' =>
            rw [hr] at this
            exact ⟨.head hstep this.1, this.2⟩
          | error e => rwa [hr] at this
      next hnone =>
        refine ⟨.refl, fun b ⟨v, hv, hb⟩ => ?_⟩
        rw [hty] at hv
        cases hv
        rw [hnone] at hb
        cases hb
    next hno => exact ⟨.refl, fun b ⟨v, hv, _⟩ => hno v hv⟩

variable {v : TypeVarId} {u : Unifier}

namespace Unifier

theorem mem_keys_of_lookup (h : (u.lookup v).isSome) :
    v ∈ u.substitution.vars.keys ++ (u.known.map fun known => known.vars.keys).getD [] := by
  unfold lookup Substitution.get Map.get at h
  rw [Option.isSome_or, Bool.or_eq_true] at h
  rcases h with h | h
  · exact List.mem_append_left _ (AList.mem_keys.mp (AList.lookup_isSome.mp h))
  · cases hk : u.known with
    | none => simp [hk] at h
    | some known =>
      rw [hk] at h
      exact List.mem_append_right _ (AList.mem_keys.mp (AList.lookup_isSome.mp h))

private theorem resolve_outcome (store : TypeStore) (u : Unifier) (ty : TypeId) :
    ResolveOutcome store u.lookup ty (u.resolve store ty) := by
  refine resolveLoop_spec (fun v => mem_keys_of_lookup) _ [] ty ?_ List.nodup_nil
    (List.nil_subset _) (by simp)
  unfold bindingCount
  cases u.known <;> simp

theorem resolve_spec {ty ty' : TypeId} (h : u.resolve store ty = .ok ty') :
    ResolvesTo store u.lookup ty ty' := by
  have := resolve_outcome store u ty
  rwa [h] at this

theorem resolve_ok_of_binding (ha : Acyclic (Binding store u.lookup)) (ty : TypeId) :
    ∃ ty', u.resolve store ty = .ok ty' := by
  cases hr : u.resolve store ty with
  | ok ty' => exact ⟨ty', rfl⟩
  | error e =>
    have := resolve_outcome store u ty
    rw [hr] at this
    exact absurd ha this

theorem resolve_ok (ha : Acyclic (Edge store u.lookup)) (ty : TypeId) :
    ∃ ty', u.resolve store ty = .ok ty' :=
  resolve_ok_of_binding (ha.mono fun _ _ => Or.inr) ty

end Unifier

theorem effectRowOccurs_iff {needle : TypeVarId} {row : EffectRowRef} :
    effectRowOccurs store needle row = true ↔
      ∃ b ∈ row.refs, store.get b = some (.var needle) := by
  simp only [effectRowOccurs, List.any_eq_true, effectOccurs, EffectRowRef.mem_refs]
  constructor
  · rintro ⟨effect, he, arg, harg, h⟩
    split at h
    next ty =>
      split at h
      next var hget =>
        rw [beq_iff_eq] at h
        subst h
        exact ⟨ty, ⟨effect, he, harg⟩, hget⟩
      next => cases h
    next => cases h
  · rintro ⟨b, ⟨effect, he, harg⟩, hget⟩
    exact ⟨effect, he, _, harg, by simp [hget]⟩

variable {α : Type*} {l : List α}

private theorem anyM_spec {f : α → Option Bool} {P : α → Prop}
    (hf : ∀ x ∈ l, ∀ b, f x = some b → (b = true ↔ P x)) {b : Bool} (h : l.anyM f = some b) :
    b = true ↔ ∃ x ∈ l, P x := by
  induction l with
  | nil =>
    cases h
    simp
  | cons x l ih =>
    rw [List.anyM_cons] at h
    cases hx : f x with
    | none =>
      rw [hx] at h
      cases h
    | some c =>
      have hc := hf x List.mem_cons_self c hx
      rw [hx] at h
      cases c with
      | true =>
        cases h
        exact iff_of_true rfl ⟨x, List.mem_cons_self, hc.mp rfl⟩
      | false =>
        have := ih (fun y hy => hf y (List.mem_cons_of_mem _ hy)) h
        simp only [List.mem_cons, exists_eq_or_imp, this]
        rw [or_iff_right fun hp => by cases hc.mpr hp]

private theorem anyM_mono {f g : α → Option Bool}
    (hfg : ∀ x b, f x = some b → g x = some b) {b : Bool} (h : l.anyM f = some b) :
    l.anyM g = some b := by
  induction l with
  | nil => exact h
  | cons x l ih =>
    rw [List.anyM_cons] at h ⊢
    cases hx : f x with
    | none =>
      rw [hx] at h
      cases h
    | some c =>
      rw [hx] at h
      rw [hfg x c hx]
      cases c with
      | true => exact h
      | false => exact ih h

private theorem anyM_isSome {f : α → Option Bool}
    (hf : ∀ x ∈ l, (f x).isSome) : (l.anyM f).isSome := by
  induction l with
  | nil => rfl
  | cons x l ih =>
    rw [List.anyM_cons]
    obtain ⟨c, hc⟩ := Option.isSome_iff_exists.mp (hf x List.mem_cons_self)
    rw [hc]
    cases c with
    | true => rfl
    | false => exact ih fun y hy => hf y (List.mem_cons_of_mem _ hy)

private theorem exists_common_bound {P : α → ℕ → Prop}
    (h : ∀ x ∈ l, ∃ n, ∀ m ≥ n, P x m) : ∃ n, ∀ m ≥ n, ∀ x ∈ l, P x m := by
  induction l with
  | nil => exact ⟨0, by simp⟩
  | cons x l ih =>
    obtain ⟨n, hn⟩ := h x List.mem_cons_self
    obtain ⟨k, hk⟩ := ih fun y hy => h y (List.mem_cons_of_mem _ hy)
    refine ⟨max n k, fun m hm y hy => ?_⟩
    rcases List.mem_cons.mp hy with rfl | hy
    · exact hn m (le_of_max_le_left hm)
    · exact hk m (le_of_max_le_right hm) y hy

namespace Unifier

private theorem seenOccurs_iff {a : TypeId} (ha : Resolved store lookup a) :
    SeenOccurs store lookup v a ↔ SeenAt store v a ∨
      ∃ ty, store.get a = some ty ∧ ∃ b ∈ ty.occursRefs, SeenOccurs store lookup v b := by
  constructor
  · rintro ⟨c, hc, hat⟩
    rcases ReflTransGen.cases_head hc with rfl | ⟨b, ⟨ty, hty, hb⟩ | hb, hbc⟩
    · exact Or.inl hat
    · exact Or.inr ⟨ty, hty, b, hb, c, hbc, hat⟩
    · exact absurd hb (ha b)
  · rintro (hat | ⟨ty, hty, b, hb, c, hbc, hat⟩)
    · exact ⟨a, .refl, hat⟩
    · exact ⟨c, .head (Or.inl ⟨ty, hty, hb⟩) hbc, hat⟩

private theorem seenOccurs_of_resolvesTo (hv : lookup v = none) {a a' : TypeId}
    (h : ResolvesTo store lookup a a') :
    SeenOccurs store lookup v a ↔ SeenOccurs store lookup v a' := by
  obtain ⟨hpath, -⟩ := h
  induction hpath using ReflTransGen.head_induction_on with
  | refl => rfl
  | @head a b hab _ ih =>
    rw [← ih]
    obtain ⟨w, hw, hl⟩ := hab
    constructor
    · rintro ⟨c, hc, hat⟩
      rcases ReflTransGen.cases_head hc with rfl | ⟨d, ⟨ty, hty, hd⟩ | hd, hdc⟩
      · -- a bound variable is not the unbound one and has no rows
        rcases hat with hat | ⟨ty, hty, e, he, -⟩
        · rw [hw] at hat
          cases hat
          rw [hv] at hl
          cases hl
        · rw [hw] at hty
          cases hty
          cases he
      · rw [hw] at hty
        cases hty
        cases hd
      · cases hd.unique ⟨w, hw, hl⟩
        exact ⟨c, hdc, hat⟩
    · rintro ⟨c, hc, hat⟩
      exact ⟨c, .head (Or.inr ⟨w, hw, hl⟩) hc, hat⟩

variable {ty : TypeId}

theorem occurs_spec (ha : Acyclic (Edge store u.lookup)) (hv : u.lookup v = none) {n : ℕ} {b : Bool}
    (h : u.occurs store v n ty = some b) :
    b = true ↔ SeenOccurs store u.lookup v ty := by
  induction n generalizing ty b with
  | zero => cases h
  | succ n ih =>
    obtain ⟨ty', hr⟩ := resolve_ok ha ty
    have hres := resolve_spec hr
    rw [seenOccurs_of_resolvesTo hv hres, seenOccurs_iff hres.2]
    simp only [occurs, hr] at h
    split at h
    next var hget =>
      cases h
      rw [beq_iff_eq]
      simp [SeenAt, hget, Ty.rowRefs, Ty.occursRows, Ty.occursRefs]
    next t hno hget =>
      obtain ⟨inside, hin, hb⟩ := Option.bind_eq_some_iff.mp h
      cases hb
      have hrows : t.occursRows.any (effectRowOccurs store v) = true ↔ SeenAt store v ty' := by
        have hvar : ¬ t = .var v := fun h => hno v (h ▸ rfl)
        simp only [List.any_eq_true, effectRowOccurs_iff, SeenAt, hget, Option.some.injEq,
          exists_eq_left', Ty.rowRefs, List.mem_flatMap, hvar, false_or]
        constructor
        · rintro ⟨row, hrow, b, hb, hv⟩
          exact ⟨b, ⟨row, hrow, hb⟩, hv⟩
        · rintro ⟨b, ⟨row, hrow, hb⟩, hv⟩
          exact ⟨row, hrow, b, hb, hv⟩
      rw [Bool.or_eq_true, anyM_spec (fun x _ c hc => ih hc) hin, hrows, or_comm]
      simp only [hget, Option.some.injEq, exists_eq_left']
    next hget =>
      cases h
      simp [SeenAt, hget]

theorem occurs_mono {n m : ℕ} (hnm : n ≤ m) {b : Bool} (h : u.occurs store v n ty = some b) :
    u.occurs store v m ty = some b := by
  induction n generalizing m ty b with
  | zero => cases h
  | succ n ih =>
    obtain ⟨m, rfl⟩ := Nat.exists_eq_add_of_le' (Nat.one_le_of_lt hnm)
    unfold occurs at h ⊢
    split at h
    next hr => exact h
    next hr =>
      split at h
      next => exact h
      next =>
        obtain ⟨inside, hin, hb⟩ := Option.bind_eq_some_iff.mp h
        have := anyM_mono (fun x c hc => ih (Nat.le_of_succ_le_succ hnm) hc) hin
        exact Option.bind_eq_some_iff.mpr ⟨inside, this, hb⟩
      next => exact h

theorem occurs_terminates (ha : Acyclic (Edge store u.lookup)) (v : TypeVarId) (ty : TypeId) :
    ∃ n, ∀ m ≥ n, (u.occurs store v m ty).isSome := by
  induction ty using (edge_wellFounded ha).induction with
  | _ ty ih =>
    obtain ⟨ty', hr⟩ := resolve_ok ha ty
    have hreach := (resolve_spec hr).reaches
    cases hget : store.get ty' with
    | none => exact ⟨1, fun m hm => by
        obtain ⟨m, rfl⟩ := Nat.exists_eq_add_of_le' hm
        simp [occurs, hr, hget]⟩
    | some t =>
      have hrefs : ∀ b ∈ t.occursRefs, ∃ n, ∀ m ≥ n, (u.occurs store v m b).isSome := by
        intro b hb
        exact ih b (.tail' hreach (SeenEdge.edge (Or.inl ⟨t, hget, hb⟩)))
      obtain ⟨n, hn⟩ := exists_common_bound hrefs
      refine ⟨n + 1, fun m hm => ?_⟩
      obtain ⟨m, rfl⟩ := Nat.exists_eq_add_of_le' (le_of_add_le_right hm)
      obtain ⟨inside, hin⟩ := Option.isSome_iff_exists.mp (anyM_isSome (hn m (by omega)))
      simp only [occurs, hr]
      split
      next => rfl
      next t' _ hget' =>
        cases hget.symm.trans hget'
        rw [hin]
        rfl
      next => rfl

theorem lookup_insert (u : Unifier) (v : TypeVarId) (ty : TypeId) :
    { u with substitution := u.substitution.insert v ty }.lookup = bound u.lookup v ty := by
  funext w
  unfold lookup bound
  rw [Substitution.get_insert]
  split_ifs <;> rfl

variable {u u' : Unifier}

theorem bind_not_seen (ha : Acyclic (Edge store u.lookup)) (hv : u.lookup v = none)
    {n : ℕ} (h : u.bind store n v ty = some (.ok (), u')) :
    ¬ SeenOccurs store u.lookup v ty := by
  unfold bind at h
  split at h
  next => cases h
  next => cases h
  next hocc =>
    intro hs
    cases (occurs_spec ha hv hocc).mpr hs

theorem lookup_of_bind {n : ℕ} (h : u.bind store n v ty = some (.ok (), u')) :
    u'.lookup = bound u.lookup v ty := by
  unfold bind at h
  split at h <;> cases h
  exact lookup_insert u v ty

theorem bind_acyclic_iff (ha : Acyclic (Edge store u.lookup))
    (hv : u.lookup v = none) {n : ℕ} (h : u.bind store n v ty = some (.ok (), u')) :
    Acyclic (Edge store u'.lookup) ↔ ¬ SkippedOccurs store u.lookup v ty := by
  rw [lookup_of_bind h, acyclic_bound_iff ha hv, occursIn_iff, or_iff_right (bind_not_seen ha hv h)]

end Unifier
end EtasFrontend.Types
