import EtasFrontend.Types.UnifierStep

/-! Runs of the unifier. The occurs check misses some occurrences; as long as no binding is made
over a missed one, the bindings stay acyclic and every call returns. -/
namespace EtasFrontend.Types
open Lib Relation

variable {lhs rhs : TypeId} {tasks : List UnifyTask}

namespace Unifier

/-- `Attempts store u tasks w v ty`: running `tasks` from `u` comes to `bind(v, ty)` in the
state `w`. -/
inductive Attempts (store : TypeStore) :
    Unifier → List UnifyTask → Unifier → TypeVarId → TypeId → Prop
  | bind {u : Unifier} {t : UnifyTask} {ts : List UnifyTask} {v : TypeVarId} {ty : TypeId}
      (h : (u.enter t).goal store t.lhs t.rhs = .bind v ty) :
      Attempts store u (t :: ts) (u.enter t) v ty
  | exact {u w : Unifier} {t : UnifyTask} {ts : List UnifyTask} {previous other : TypeId}
      {v : TypeVarId} {ty : TypeId}
      (h : (u.enter t).goal store t.lhs t.rhs = .exact previous other)
      (ha : Attempts store exactUnifier [exactUnifier.task previous other] w v ty) :
      Attempts store u (t :: ts) w v ty
  | descend {u w : Unifier} {t : UnifyTask} {ts tasks : List UnifyTask}
      {after : Option UnifyError} {v : TypeVarId} {ty : TypeId}
      (h : (u.enter t).goal store t.lhs t.rhs = .descend tasks after)
      (ha : Attempts store (u.enter t) tasks w v ty) : Attempts store u (t :: ts) w v ty
  | later {u u' w : Unifier} {t : UnifyTask} {ts : List UnifyTask} {n : ℕ} {v : TypeVarId}
      {ty : TypeId} (h : unify store n (u.enter t) t.lhs t.rhs = some (.ok (), u'))
      (ha : Attempts store (u'.leave u) ts w v ty) : Attempts store u (t :: ts) w v ty

/-- No binding is attempted over a missed occurrence: where the variable occurs below a skipped
component, it also occurs where the check looks. -/
def NoMissedOccurrence (store : TypeStore) (u : Unifier) (tasks : List UnifyTask) : Prop :=
  ∀ w v ty, Attempts store u tasks w v ty →
    SkippedOccurs store w.lookup v ty → SeenOccurs store w.lookup v ty

variable {store : TypeStore} {v : TypeVarId}

theorem Attempts.of_head {u w : Unifier} {t : UnifyTask} (ts : List UnifyTask) {ty : TypeId}
    (h : Attempts store (u.enter t) [t] w v ty) :
    Attempts store u (t :: ts) w v ty := by
  cases h with
  | bind h => exact .bind h
  | exact h ha => exact .exact h ha
  | descend h ha => exact .descend h ha
  | later _ ha => cases ha

variable {result : Except UnifyError Unit} {u u' : Unifier} {n : ℕ}

variable {I : (TypeVarId → Option TypeId) → Prop}

theorem runTasks_invariant (hb : ∀ w v ty m w', Attempts store u tasks w v ty → I w.lookup →
      w.bind store m v ty = some (.ok (), w') → I w'.lookup)
    (h : runTasks (unify store n) u tasks = some (result, u')) (hi : I u.lookup) :
    I u'.lookup := by
  induction n generalizing u u' tasks result with
  | zero =>
    cases tasks with
    | nil => cases h; exact hi
    | cons t ts => cases h
  | succ n ihn =>
    induction tasks generalizing u with
    | nil => cases h; exact hi
    | cons t ts iht =>
      have hcall : ∀ {res w}, unify store (n + 1) (u.enter t) t.lhs t.rhs = some (res, w) →
          I w.lookup := by
        intro res w hw
        cases unify_step hw with
        | fail _ | done _ | exact _ _ | remember _ => exact hi
        | @bind v ty _ _ hg hr =>
          cases res with
          | ok _ => exact hb _ v ty n w (.bind hg) hi hr
          | error e =>
            have : w = u.enter t := by
              unfold bind at hr
              split at hr <;> cases hr
              rfl
            rw [this]
            exact hi
        | descend hg hr _ =>
          exact ihn (fun w v ty m w' hat => hb w v ty m w' (.descend hg hat)) hr hi
      unfold runTasks at h
      split at h
      next => cases h
      next ht =>
        cases h
        have hw := hcall ht
        exact hw
      next ht =>
        have hw := hcall ht
        exact iht (fun w v ty m w' hat => hb w v ty m w' (.later ht hat)) h hw

theorem runTasks_of_unify (h : unify store n u lhs rhs = some (result, u')) :
    runTasks (unify store n) u [u.task lhs rhs] = some (result, u') := by
  have hs := unify_sameSetup h
  have hleave : u'.leave u = u' := by
    unfold leave
    rw [← hs.readOnlyErasure, ← hs.definitionContract]
  unfold runTasks
  split
  next ht => cases h.symm.trans ht
  next ht =>
    cases h.symm.trans ht
    rw [hleave]
  next ht =>
    cases h.symm.trans ht
    rw [hleave]
    rfl

theorem unify_invariant (hb : ∀ w v ty m w', Attempts store u [u.task lhs rhs] w v ty → I w.lookup →
      w.bind store m v ty = some (.ok (), w') → I w'.lookup)
    (h : unify store n u lhs rhs = some (result, u')) (hi : I u.lookup) : I u'.lookup :=
  runTasks_invariant hb (runTasks_of_unify h) hi

/-! What the bindings do over a call. -/

theorem Attempts.lookup_eq_none {u w : Unifier} {ty : TypeId} (h : Attempts store u tasks w v ty) :
    w.lookup v = none ∧ ∃ a, store.get a = some (.var v) := by
  induction h with
  | bind h => exact lookup_of_goal_bind h
  | exact _ _ ih | descend _ _ ih | later _ _ ih => exact ih

theorem unify_extends (h : unify store n u lhs rhs = some (result, u')) {ty : TypeId}
    (hv : u.lookup v = some ty) : u'.lookup v = some ty := by
  refine unify_invariant (I := fun lookup => lookup v = some ty) ?_ h hv
  intro w x other m w' hat hw hbind
  have hx := hat.lookup_eq_none.1
  have hne : v ≠ x := by
    rintro rfl
    rw [hw] at hx
    cases hx
  rw [lookup_of_bind hbind]
  simp [bound, hne, hw]

theorem unify_acyclic (ha : Acyclic (Edge store u.lookup))
    (hm : NoMissedOccurrence store u [u.task lhs rhs])
    (h : unify store n u lhs rhs = some (result, u')) : Acyclic (Edge store u'.lookup) := by
  refine unify_invariant (I := fun lookup => Acyclic (Edge store lookup)) ?_ h ha
  intro w v ty m w' hat hw hbind
  have hv := hat.lookup_eq_none.1
  rw [bind_acyclic_iff hw hv hbind]
  intro hskip
  exact bind_not_seen hw hv hbind (hm w v ty hat hskip)

open Classical in
/-- The nodes that are unbound variables. -/
noncomputable def openNodes (store : TypeStore) (lookup : TypeVarId → Option TypeId) :
    Finset TypeId :=
  (Finset.range store.len).filter fun a => ∃ v, store.get a = some (.var v) ∧ lookup v = none

variable {lookup : TypeVarId → Option TypeId}

theorem openNodes_bound (ty : TypeId) (hv : lookup v = none)
    {a : TypeId} (ha : store.get a = some (.var v)) :
    (openNodes store (bound lookup v ty)).card < (openNodes store lookup).card := by
  apply Finset.card_lt_card
  refine ⟨fun b hb => ?_, fun hsub => ?_⟩
  · simp only [openNodes, Finset.mem_filter] at hb ⊢
    obtain ⟨hlt, w, hw, hl⟩ := hb
    refine ⟨hlt, w, hw, ?_⟩
    unfold bound at hl
    split_ifs at hl
    exact hl
  · have hmem : a ∈ openNodes store lookup := by
      simp only [openNodes, Finset.mem_filter, Finset.mem_range]
      exact ⟨TypeStore.lt_len_of_get ha, v, ha, hv⟩
    have := hsub hmem
    simp only [openNodes, Finset.mem_filter] at this
    obtain ⟨-, w, hw, hl⟩ := this
    rw [ha] at hw
    cases hw
    simp [bound] at hl

theorem unify_progress (h : unify store n u lhs rhs = some (result, u')) :
    u'.lookup = u.lookup ∨
      (openNodes store u'.lookup).card < (openNodes store u.lookup).card := by
  refine unify_invariant (I := fun lookup => lookup = u.lookup ∨
    (openNodes store lookup).card < (openNodes store u.lookup).card) ?_ h (Or.inl rfl)
  intro w v ty m w' hat hw hbind
  obtain ⟨hv, a, ha⟩ := hat.lookup_eq_none
  have hlt := openNodes_bound ty hv ha
  rw [lookup_of_bind hbind]
  rcases hw with hw | hw
  · rw [← hw]
    exact Or.inr hlt
  · exact Or.inr (hlt.trans hw)

def Terminates (store : TypeStore) (u : Unifier) (lhs rhs : TypeId) : Prop :=
  ∃ n, (unify store n u lhs rhs).isSome

variable {u : Unifier}

/-- Tasks whose calls all terminate, each from the state the ones before it leave, come to an
end together. -/
private theorem runTasks_terminates {P : Unifier → List UnifyTask → Prop}
    (hcall : ∀ {u t ts}, P u (t :: ts) → Terminates store (u.enter t) t.lhs t.rhs)
    (hnext : ∀ {u t ts n u'}, P u (t :: ts) →
      unify store n (u.enter t) t.lhs t.rhs = some (.ok (), u') → P (u'.leave u) ts)
    (h : P u tasks) :
    ∃ n, (runTasks (unify store n) u tasks).isSome := by
  induction tasks generalizing u with
  | nil => exact ⟨0, rfl⟩
  | cons t ts ih =>
    obtain ⟨n, hn⟩ := hcall h
    obtain ⟨⟨result, u'⟩, hr⟩ := Option.isSome_iff_exists.mp hn
    cases result with
    | error e => exact ⟨n, by simp [runTasks, hr]⟩
    | ok _ =>
      obtain ⟨m, hm⟩ := ih (hnext h hr)
      obtain ⟨x, hx⟩ := Option.isSome_iff_exists.mp hm
      refine ⟨max n m, ?_⟩
      have hr' := unify_mono (le_max_left n m) hr
      have hx' := runTasks_mono (fun h => unify_mono (le_max_right n m) h) hx
      simp [runTasks, hr', hx']

private theorem terminates_of_goal (ha : Acyclic (Edge store u.lookup))
    (hexact : ∀ p q, u.goal store lhs rhs = .exact p q → Terminates store exactUnifier p q)
    (htasks : ∀ tasks after, u.goal store lhs rhs = .descend tasks after →
      ∃ n, (runTasks (unify store n) u tasks).isSome) : Terminates store u lhs rhs := by
  cases hg : u.goal store lhs rhs with
  | fail _ | done | remember _ _ => exact ⟨1, by simp [unify, hg]⟩
  | exact p q =>
    obtain ⟨n, hn⟩ := hexact p q hg
    obtain ⟨⟨result, w⟩, hr⟩ := Option.isSome_iff_exists.mp hn
    exact ⟨n + 1, by simp [unify, hg, hr]⟩
  | bind v ty =>
    obtain ⟨n, hn⟩ := occurs_terminates ha v ty
    obtain ⟨b, hb⟩ := Option.isSome_iff_exists.mp (hn n le_rfl)
    exact ⟨n + 1, by cases b <;> simp [unify, hg, bind, hb]⟩
  | descend tasks after =>
    obtain ⟨n, hn⟩ := htasks tasks after hg
    obtain ⟨⟨result, w⟩, hr⟩ := Option.isSome_iff_exists.mp hn
    exact ⟨n + 1, by cases result <;> cases after <;> simp [unify, hg, hr]⟩

/-- Induction on the open nodes and, while the bindings stay as they are, along the graph. The
fresh unifier of a pattern starts over, so its calls are a hypothesis here. -/
private theorem unify_terminates_aux {setup : Option (List TypeId)} (hsetup : setup = none ∨ ∀ l r,
      NoMissedOccurrence store exactUnifier [exactUnifier.task l r] →
        Terminates store exactUnifier l r)
    (ha : Acyclic (Edge store lookup)) (lhs : TypeId) (hu : u.lookup = lookup)
    (hp : u.patternParameters = setup) {rhs : TypeId}
    (hm : NoMissedOccurrence store u [u.task lhs rhs]) : Terminates store u lhs rhs := by
  induction hk : (openNodes store lookup).card using Nat.strong_induction_on
    generalizing lookup lhs u rhs with
  | _ k ihk =>
  induction lhs using (edge_wellFounded ha).induction generalizing u rhs with
  | _ lhs ihl =>
  subst hu
  refine terminates_of_goal ha (fun p q hg => ?_) (fun tasks after hg => ?_)
  · rcases hsetup with hnone | hsetup
    · have hs := goal_step store u lhs rhs
      rw [hg] at hs
      cases hs with
      | exact hsome =>
        rw [hp, hnone] at hsome
        cases hsome
    · exact hsetup p q fun w v ty hat => hm w v ty (.exact hg hat)
  · -- the state before each task still has these bindings or fewer open nodes
    let P (w : Unifier) (ts : List UnifyTask) : Prop :=
      w.patternParameters = setup ∧ Acyclic (Edge store w.lookup) ∧
      (w.lookup = u.lookup ∨ (openNodes store w.lookup).card < k) ∧
      NoMissedOccurrence store w ts ∧ ∀ t ∈ ts, TransGen (Edge store u.lookup) lhs t.lhs
    have hstart : P u tasks :=
      ⟨hp, ha, Or.inl rfl, fun w v ty hat => hm w v ty (.descend hg hat), path_of_goal_descend hg⟩
    have hhead : ∀ {w t ts}, P w (t :: ts) →
        NoMissedOccurrence store (w.enter t) [(w.enter t).task t.lhs t.rhs] :=
      fun h x v ty hat => h.2.2.2.1 x v ty (.of_head _ hat)
    refine runTasks_terminates (P := P) ?_ ?_ hstart
    · intro w t ts h
      obtain ⟨hwp, hwa, hw, -, hpath⟩ := id h
      rcases hw with hw | hw
      · exact ihl t.lhs (hpath t List.mem_cons_self) (u := w.enter t) hw hwp (hhead h)
      · exact ihk _ hw hwa t.lhs (u := w.enter t) rfl hwp (hhead h) rfl
    · intro w t ts n w' h hr
      obtain ⟨hwp, hwa, hw, hwm, hpath⟩ := id h
      have hsame := unify_sameSetup hr
      have hacyc := unify_acyclic (u := w.enter t) hwa (hhead h) hr
      refine ⟨hsame.patternParameters.trans hwp, hacyc, ?_,
        fun x v ty hat => hwm x v ty (.later hr hat),
        fun t' ht' => hpath t' (List.mem_cons_of_mem _ ht')⟩
      rcases unify_progress hr with hpr | hpr
      · rcases hw with hw | hw
        · exact Or.inl (hpr.trans hw)
        · refine Or.inr ?_
          change (openNodes store w'.lookup).card < k
          rw [hpr]
          exact hw
      · rcases hw with hw | hw
        · exact Or.inr (hpr.trans_eq (by rw [← hk, ← hw]; rfl))
        · exact Or.inr (hpr.trans hw)

theorem acyclic_empty (hs : store.WellFormed) : Acyclic (Edge store fun _ => none) :=
  (acyclic_edge_iff hs).mpr fun _ _ h => by cases h

theorem unify_terminates (hs : store.WellFormed) (ha : Acyclic (Edge store u.lookup))
    (hm : NoMissedOccurrence store u [u.task lhs rhs]) : Terminates store u lhs rhs := by
  refine unify_terminates_aux (Or.inr fun l r hx => ?_) ha lhs rfl rfl hm
  exact unify_terminates_aux (Or.inl rfl) (acyclic_empty hs) l rfl rfl hx

/-- All bindings of a unifier in one substitution, as `extend` of the known map by the delta
makes it. -/
def combined (u : Unifier) : Substitution := (u.known.getD .empty).extend u.substitution

theorem combined_get (u : Unifier) : u.combined.get = u.lookup := by
  funext v
  unfold combined lookup
  rw [Substitution.get_extend]
  cases u.known <;> simp

/-- The unifiers of a sequence of calls that starts with nothing bound and misses no occurrence.
A caller goes on with the same unifier, adds the delta to the known map, drops it, or starts a
unifier that owns the bindings so far. -/
inductive Run (store : TypeStore) : Unifier → Prop
  | new : Run store new
  | erase {u : Unifier} (h : Run store u) : Run store u.withReadOnlyErasure
  | pattern {u : Unifier} (h : Run store u) (parameters : List TypeId) :
      Run store (u.withPatternParameters parameters)
  | call {u u' : Unifier} {n : ℕ} {lhs rhs : TypeId} {result : Except UnifyError Unit}
      (h : Run store u) (hm : NoMissedOccurrence store u [u.task lhs rhs])
      (hr : unify store n u lhs rhs = some (result, u')) : Run store u'
  | extend {u : Unifier} (h : Run store u) : Run store (withKnownSubstitution u.combined)
  | drop {u : Unifier} {known : Substitution} (h : Run store u) (hk : u.known = some known) :
      Run store (withKnownSubstitution known)
  | own {u : Unifier} (h : Run store u) : Run store (withSubstitution u.combined)

private theorem Run.acyclic (hs : store.WellFormed) (h : Run store u) :
    Acyclic (Edge store u.lookup) ∧
      ∀ known, u.known = some known → Acyclic (Edge store known.get) := by
  induction h with
  | new => exact ⟨acyclic_empty hs, fun _ h => by cases h⟩
  | erase _ ih | pattern _ _ ih => exact ih
  | call _ hm hr ih =>
    refine ⟨unify_acyclic ih.1 hm hr, ?_⟩
    rw [(unify_sameSetup hr).known]
    exact ih.2
  | @extend u _ ih =>
    refine ⟨?_, fun known hk => ?_⟩
    · change Acyclic (Edge store u.combined.get)
      rw [combined_get]
      exact ih.1
    · cases hk
      rw [combined_get]
      exact ih.1
  | drop _ hk ih =>
    refine ⟨ih.2 _ hk, fun known hk' => ?_⟩
    cases hk'
    exact ih.2 _ hk
  | @own u _ ih =>
    refine ⟨?_, fun _ hk => by cases hk⟩
    have : (withSubstitution u.combined).lookup = u.combined.get := by
      funext v
      exact Option.or_none
    rw [this, combined_get]
    exact ih.1

/-- In every run that misses no occurrence the bindings stay acyclic, `resolve` finds the end of
every chain, and every further call that misses none returns. -/
theorem run_acyclic_and_returns (hs : store.WellFormed) {u : Unifier} (h : Run store u) :
    AcyclicBindings store u.lookup ∧
    (∀ ty, ∃ ty', u.resolve store ty = .ok ty' ∧ ResolvesTo store u.lookup ty ty') ∧
    ∀ lhs rhs, NoMissedOccurrence store u [u.task lhs rhs] →
      ∃ n, (unify store n u lhs rhs).isSome := by
  have ha := (h.acyclic hs).1
  refine ⟨(acyclic_edge_iff hs).mp ha, fun ty => ?_, fun lhs rhs hm => unify_terminates hs ha hm⟩
  obtain ⟨ty', hr⟩ := resolve_ok ha ty
  exact ⟨ty', hr, resolve_spec hr⟩

/-- A box type and its applications to two variables. -/
def boxStore : TypeStore := { TypeStore.new with
  types := [.nominal ⟨"Box", ["T"], none, false⟩, .var 0, .applied 0 [1], .var 1, .applied 0 [3],
    .list 3] }

private theorem boxStore_wellFormed : boxStore.WellFormed :=
  TypeStore.wellFormed_of_lt (by decide)

private theorem noMissedOccurrence_of_bind {u : Unifier} {lhs rhs ty : TypeId} {v : TypeVarId}
    (hg : u.goal store lhs rhs = .bind v ty)
    (h : ∀ a b, Reaches store u.lookup ty a → ¬ Skipped store v a b) :
    NoMissedOccurrence store u [u.task lhs rhs] := by
  intro w v' ty' hat
  rintro ⟨a, b, ha, hskip, -⟩
  cases hat with
  | bind hbind =>
    cases hg.symm.trans hbind
    exact (h a b ha hskip).elim
  | exact hexact _ => cases hg.symm.trans hexact
  | descend hdescend _ => cases hg.symm.trans hdescend
  | later _ hlater => cases hlater

private theorem noMissedOccurrence_of_fail {u : Unifier} {lhs rhs : TypeId} {error : UnifyError}
    (hg : u.goal store lhs rhs = .fail error) : NoMissedOccurrence store u [u.task lhs rhs] := by
  intro w v ty hat
  cases hat with
  | bind hbind => cases hg.symm.trans hbind
  | exact hexact _ => cases hg.symm.trans hexact
  | descend hdescend _ => cases hg.symm.trans hdescend
  | later _ hlater => cases hlater

/-- The first variable is bound to a list. -/
def listBound : Unifier := { new with substitution := Substitution.empty.insert 0 5 }

/-- The bindings so far are known, and the other variable is bound to the box type. -/
def boxBound : Unifier :=
  { withKnownSubstitution listBound.combined with substitution := Substitution.empty.insert 1 0 }

theorem run_acyclic_and_returns_calls : ∃ error,
    unify boxStore 3 new 1 5 = some (.ok (), listBound) ∧
    unify boxStore 3 (withKnownSubstitution listBound.combined) 3 0 = some (.ok (), boxBound) ∧
    unify boxStore 3 boxBound 1 0 = some (.error error, boxBound) ∧
    AcyclicBindings boxStore boxBound.lookup ∧
      ∃ ty, boxBound.resolve boxStore 1 = .ok ty ∧ ResolvesTo boxStore boxBound.lookup 1 ty := by
  have hlist : NoMissedOccurrence boxStore new [new.task 1 5] := by
    have hgoal : new.goal boxStore 1 5 = .bind 0 5 := rfl
    refine noMissedOccurrence_of_bind hgoal fun a b ha => ?_
    have ha : a = 5 ∨ a = 3 := by
      induction ha with
      | refl => exact Or.inl rfl
      | tail _ hbc ih =>
        rcases hbc with ⟨ty, hty, hb⟩ | ⟨_, _, hv⟩
        · rcases ih with rfl | rfl
          · cases hty
            exact Or.inr (List.mem_singleton.mp hb)
          · cases hty
            cases hb
        · cases hv
    rintro ⟨t, ht, hskip⟩
    rcases ha with rfl | rfl <;> cases ht <;> rcases hskip with h | ⟨h, -⟩ <;> cases h
  have hbox : NoMissedOccurrence boxStore (withKnownSubstitution listBound.combined)
      [(withKnownSubstitution listBound.combined).task 3 0] := by
    have hgoal : (withKnownSubstitution listBound.combined).goal boxStore 3 0 = .bind 1 0 := rfl
    refine noMissedOccurrence_of_bind hgoal fun a b ha => ?_
    rintro ⟨t, ht, hskip⟩
    rcases ReflTransGen.cases_head ha with rfl | ⟨c, ⟨ty, hty, hc⟩ | ⟨v, hv, -⟩, -⟩
    · cases ht
      rcases hskip with h | ⟨h, -⟩ <;> cases h
    · cases hty
      cases hc
    · cases hv
  have hfail : NoMissedOccurrence boxStore boxBound [boxBound.task 1 0] :=
    noMissedOccurrence_of_fail (show boxBound.goal boxStore 1 0 = .fail (.mismatch 5 0) from rfl)
  have hrun : Run boxStore boxBound :=
    .call (n := 3) (.call (n := 3) (.extend (.call (n := 3) .new hlist rfl)) hbox rfl) hfail rfl
  obtain ⟨hacyc, hres, -⟩ := run_acyclic_and_returns boxStore_wellFormed hrun
  exact ⟨_, rfl, rfl, rfl, hacyc, hres 1⟩

/-- `T := Box[T]` passes the check; after two such bindings a call never returns. -/
theorem unify_applied_makes_cycle :
    boxStore.WellFormed ∧ ∃ u₁ u₂,
      unify boxStore 2 new 1 2 = some (.ok (), u₁) ∧ ¬ AcyclicBindings boxStore u₁.lookup ∧
      unify boxStore 2 u₁ 3 4 = some (.ok (), u₂) ∧ ∀ n, unify boxStore n u₂ 1 3 = none := by
  let u₁ : Unifier := { new with substitution := Substitution.empty.insert 0 2 }
  let u₂ : Unifier := { new with substitution := u₁.substitution.insert 1 4 }
  refine ⟨boxStore_wellFormed, u₁, u₂, rfl, ?_, rfl, fun n => ?_⟩
  · intro h
    refine h 0 2 rfl ⟨1, .single (Or.inl ⟨_, rfl, ?_⟩), rfl⟩
    decide
  · have hg : u₂.goal boxStore 1 3 = .descend [u₂.task 0 0, u₂.task 1 3] none := rfl
    have hd : u₂.goal boxStore 0 0 = .done := rfl
    induction n with
    | zero => rfl
    | succ n ih =>
      have hrun : runTasks (unify boxStore n) u₂ [u₂.task 0 0, u₂.task 1 3] = none := by
        cases n with
        | zero => rfl
        | succ n =>
          have h0 : unify boxStore (n + 1) u₂ 0 0 = some (.ok (), u₂) := by simp [unify, hd]
          simp only [runTasks, task, enter, leave] at h0 ih ⊢
          rw [h0]
          simp only
          rw [ih]
      simp only [unify, hg, hrun]

end Unifier
end EtasFrontend.Types
