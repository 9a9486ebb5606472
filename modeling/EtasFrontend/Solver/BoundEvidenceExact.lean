import EtasFrontend.Lib.Fallible
import EtasFrontend.Solver.BoundEvidence
import EtasFrontend.Types.SubstitutionExisting
import EtasFrontend.Types.UnifierStep
import Mathlib.Data.Set.Finite.List

/-! The closure of bounds is the least set closed under super-specs, and a spec is entailed where a
supported bound of the closure matches it. -/
namespace EtasFrontend.Solver
open Lib EtasFrontend.Types Relation

/-- What an engine is given for a bound and its declaration. -/
abbrev InputOf :=
  CheckedSpecBound → SpecDeclaration → Map CanonicalTypeParameterIdentity TypeId → SubstitutionInput

def closureInputOf : InputOf := fun bound declaration canonical =>
  declaration.closureInput bound.args canonical

def entailsInputOf : InputOf := fun bound declaration canonical =>
  declaration.entailsInput bound.args canonical

/-- The parameters of the declaring spec, each kind in its own way: symbols of a source spec, names
of an external one, identities of a canonical one. -/
def declaredInputOf : InputOf := fun bound declaration canonical =>
  match bound.spec with
  | .source _ => ⟨none, some (declaration.parameterArguments bound.args), none, none, none, none, none⟩
  | .external _ _ => ⟨some (declaration.namedArguments bound.args), none, none, none, none, none, none⟩
  | _ => ⟨none, none, some canonical, none, none, none, none⟩

section
variable (store : TypeStore) (facts : SpecFacts) (portable : GenericOwner → Bool)

/-- A bound with its declaration, and the arguments of the right number. -/
structure Declared (bound : CheckedSpecBound) (declaration : SpecDeclaration)
    (canonical : Map CanonicalTypeParameterIdentity TypeId) : Prop where
  found : facts.declaration bound.spec = .ok (some declaration)
  arity : declaration.names.length = bound.args.length
  bindings : canonicalBindings portable bound = .ok canonical

/-- `p` is a super-spec of the bound, with the arguments in the place of the parameters. -/
def AboveBy (input : InputOf) (bound p : CheckedSpecBound) : Prop :=
  ∃ declaration canonical, Declared facts portable bound declaration canonical ∧
    ∃ parent ∈ declaration.supers, ∃ args,
      List.Forall₂ (Placed store (input bound declaration canonical)) parent.args args ∧
        p = facts.normalizeBound ⟨parent.spec, args⟩

abbrev Above : CheckedSpecBound → CheckedSpecBound → Prop :=
  AboveBy store facts portable declaredInputOf

/-- The least set that has the given bounds and is closed under super-specs. -/
inductive Evidence (bounds : List CheckedSpecBound) : CheckedSpecBound → Prop
  | given {bound : CheckedSpecBound} (h : bound ∈ bounds) :
      Evidence bounds (facts.normalizeBound bound)
  | above {bound p : CheckedSpecBound} (hb : Evidence bounds bound)
      (h : Above store facts portable bound p) : Evidence bounds p

/-- Two engines replace the same types in the arguments of the super-specs of a bound. -/
def BindersAgree (input other : InputOf) (bound : CheckedSpecBound) : Prop :=
  ∀ declaration canonical, Declared facts portable bound declaration canonical →
    ∀ parent ∈ declaration.supers, ∀ a ∈ parent.args,
      SameReplacements store (input bound declaration canonical)
        (other bound declaration canonical) a

end

theorem closureInput_plain (declaration : SpecDeclaration) (args : List TypeId)
    (canonical : Map CanonicalTypeParameterIdentity TypeId) :
    (declaration.closureInput args canonical).Plain := ⟨rfl, rfl, rfl⟩

theorem entailsInput_plain (declaration : SpecDeclaration) (args : List TypeId)
    (canonical : Map CanonicalTypeParameterIdentity TypeId) :
    (declaration.entailsInput args canonical).Plain := ⟨rfl, rfl, rfl⟩

/-! The super-specs of one bound. -/

/-- A super-spec with its arguments instantiated. -/
structure Instance (store : TypeStore) (σ : SubstitutionInput) (parent p : CheckedSpecBound) :
    Prop where
  spec : p.spec = parent.spec
  args : List.Forall₂ (Placed store σ) parent.args p.args

/-- All super-specs of a bound, instantiated. -/
inductive Opened (store : TypeStore) (facts : SpecFacts) (portable : GenericOwner → Bool)
    (input : InputOf) (bound : CheckedSpecBound) : List CheckedSpecBound → Prop
  | std (h : facts.declaration bound.spec = .ok none) : Opened store facts portable input bound []
  | declared {declaration : SpecDeclaration}
      {canonical : Map CanonicalTypeParameterIdentity TypeId} {parents : List CheckedSpecBound}
      (h : Declared facts portable bound declaration canonical)
      (hp : List.Forall₂ (Instance store (input bound declaration canonical)) declaration.supers
        parents) : Opened store facts portable input bound parents

section
variable {store : TypeStore} {facts : SpecFacts} {portable : GenericOwner → Bool}
  {input other : InputOf} {bound p : CheckedSpecBound}

theorem Declared.unique {declaration declaration' : SpecDeclaration}
    {canonical canonical' : Map CanonicalTypeParameterIdentity TypeId}
    (h : Declared facts portable bound declaration canonical)
    (h' : Declared facts portable bound declaration' canonical') :
    declaration = declaration' ∧ canonical = canonical' := by
  have hfound := h.found.symm.trans h'.found
  have hbindings := h.bindings.symm.trans h'.bindings
  cases hfound
  cases hbindings
  exact ⟨rfl, rfl⟩

variable {σ : SubstitutionInput}

theorem placed_unique {as rs rs' : List TypeId} (h : List.Forall₂ (Placed store σ) as rs)
    (h' : List.Forall₂ (Placed store σ) as rs') :
    rs = rs' :=
  List.right_unique_forall₂' (fun _ _ _ hr hr' => hr.unique hr') h h'

variable {n : ℕ}

/-- The loop over the super-specs, on one engine. -/
theorem instances_existing (hσ : σ.Plain) (hn : store.existingBound ≤ n)
    (supers : List CheckedSpecBound) {engine : Engine TypeStore} (h : Resting store σ engine) :
    ∃ result after, (supers.mapM fun parent => do
        let args ← parent.args.mapM (substitute .existing n σ)
        return { parent with args } : EngineM TypeStore (List CheckedSpecBound)) engine =
          some (result, after) ∧ Resting store σ after ∧
      ∀ parents, result = .ok parents ↔ List.Forall₂ (Instance store σ) supers parents := by
  refine mapM_resting (fun parent _ engine h => ?_) h
  obtain ⟨result, after, hrun, hafter, hspec⟩ := mapM_resting (l := parent.args)
    (fun a _ engine h => substitute_existing hσ h a ((walkBound_le σ store).trans hn)) h
  cases result with
  | error error =>
    refine ⟨_, after, bind_error hrun _, hafter, fun q => iff_of_false nofun fun hq => ?_⟩
    cases (hspec q.args).mpr hq.args
  | ok args =>
    refine ⟨.ok { parent with args }, after, bind_ok hrun _, hafter, fun q => ?_⟩
    rw [Except.ok.injEq]
    constructor
    · rintro rfl
      exact ⟨rfl, (hspec args).mp rfl⟩
    · rintro ⟨hspec', hargs⟩
      cases (hspec q.args).mpr hargs
      obtain ⟨spec, args⟩ := q
      cases hspec'
      rfl

variable {parents : List CheckedSpecBound}

theorem Opened.above_iff (h : Opened store facts portable input bound parents) :
    AboveBy store facts portable input bound p ↔ ∃ q ∈ parents, facts.normalizeBound q = p := by
  cases h with
  | std h =>
    constructor
    · rintro ⟨declaration, canonical, hd, -⟩
      cases h.symm.trans hd.found
    · rintro ⟨q, hq, -⟩
      cases hq
  | @declared declaration canonical _ hd hp =>
    constructor
    · rintro ⟨declaration', canonical', hd', parent, hparent, args, hargs, rfl⟩
      obtain ⟨rfl, rfl⟩ := hd.unique hd'
      obtain ⟨q, hq, hinstance⟩ := forall₂_mem_left hp hparent
      refine ⟨q, hq, ?_⟩
      obtain ⟨spec, args'⟩ := q
      obtain ⟨rfl, hargs'⟩ := hinstance
      rw [placed_unique hargs hargs']
    · rintro ⟨q, hq, rfl⟩
      obtain ⟨parent, hparent, hspec, hargs⟩ := forall₂_mem_right hp hq
      refine ⟨declaration, canonical, hd, parent, hparent, q.args, hargs, ?_⟩
      rw [← hspec]

theorem AboveBy.congr (hagree : BindersAgree store facts portable input other bound) :
    AboveBy store facts portable input bound p ↔ AboveBy store facts portable other bound p := by
  refine exists_congr fun declaration => exists_congr fun canonical => and_congr_right fun hd => ?_
  refine exists_congr fun parent => and_congr_right fun hparent => exists_congr fun args =>
    and_congr_left fun _ => ?_
  exact forall₂_congr_mem _ fun a ha r =>
    Placed.congr_iff (hagree declaration canonical hd parent hparent a ha)

theorem Opened.congr (hagree : BindersAgree store facts portable input other bound)
    (h : Opened store facts portable input bound parents) :
    Opened store facts portable other bound parents := by
  cases h with
  | std h => exact .std h
  | @declared declaration canonical _ hd hp =>
    refine .declared hd ((forall₂_congr_mem _ fun parent hparent q => ?_).mp hp)
    have hargs := forall₂_congr_mem q.args fun a ha r =>
      Placed.congr_iff (r := r) (hagree declaration canonical hd parent hparent a ha)
    exact ⟨fun h => ⟨h.spec, hargs.mp h.args⟩, fun h => ⟨h.spec, hargs.mpr h.args⟩⟩

theorem Opened.of_declaration {declaration : SpecDeclaration}
    (hfound : facts.declaration bound.spec = .ok (some declaration))
    (h : Opened store facts portable input bound parents) :
    ∃ canonical, Declared facts portable bound declaration canonical ∧
      List.Forall₂ (Instance store (input bound declaration canonical)) declaration.supers
        parents := by
  cases h with
  | std h => cases hfound.symm.trans h
  | declared hd hp =>
    cases hfound.symm.trans hd.found
    exact ⟨_, hd, hp⟩

theorem superBounds_spec (facts : SpecFacts) (portable : GenericOwner → Bool)
    (hn : store.existingBound ≤ n) (bound : CheckedSpecBound) :
    ∃ result, superBounds store facts portable n bound = some result ∧
      ∀ parents, result = .ok parents ↔
        Opened store facts portable closureInputOf bound parents := by
  unfold superBounds
  rcases hfound : facts.declaration bound.spec with message | _ | declaration
  · refine ⟨_, rfl, fun parents => iff_of_false nofun fun h => ?_⟩
    cases h with
    | std h => cases hfound.symm.trans h
    | declared h _ => cases hfound.symm.trans h.found
  · refine ⟨_, rfl, fun parents => ?_⟩
    constructor
    · intro h
      cases h
      exact .std hfound
    · intro h
      cases h with
      | std => rfl
      | declared h _ => cases hfound.symm.trans h.found
  dsimp only
  by_cases harity : declaration.names.length = bound.args.length
  · rw [if_neg (not_not.mpr harity)]
    rcases hcanonical : canonicalBindings portable bound with message | canonical
    · refine ⟨_, rfl, fun parents => iff_of_false nofun fun h => ?_⟩
      obtain ⟨canonical, hd, -⟩ := h.of_declaration hfound
      cases hcanonical.symm.trans hd.bindings
    dsimp only
    have hplain := closureInput_plain declaration bound.args canonical
    have hd : Declared facts portable bound declaration canonical := ⟨hfound, harity, hcanonical⟩
    obtain ⟨result, after, hrun, -, hspec⟩ := instances_existing hplain hn declaration.supers
      (.fresh store (declaration.closureInput bound.args canonical))
    rw [hrun]
    have hopened : ∀ parents, Opened store facts portable closureInputOf bound parents ↔
        List.Forall₂ (Instance store (declaration.closureInput bound.args canonical))
          declaration.supers parents := by
      intro parents
      constructor
      · intro h
        obtain ⟨canonical', hd', hp⟩ := h.of_declaration hfound
        obtain ⟨-, rfl⟩ := hd.unique hd'
        exact hp
      · exact fun h => .declared hd h
    simp only [hopened]
    cases result with
    | error error =>
      refine ⟨_, rfl, fun parents => iff_of_false nofun fun h => ?_⟩
      cases (hspec parents).mpr h
    | ok parents =>
      refine ⟨_, rfl, fun parents' => ?_⟩
      rw [← hspec, Except.ok.injEq, Except.ok.injEq]
  · rw [if_pos harity]
    refine ⟨_, rfl, fun parents => iff_of_false nofun fun h => ?_⟩
    obtain ⟨canonical, hd, -⟩ := h.of_declaration hfound
    exact harity hd.arity

/-! The closure comes to finitely many bounds. -/

/-- The super-specs of all declarations. -/
def allSupers (facts : SpecFacts) : List CheckedSpecBound :=
  (facts.signatures.toList.flatMap fun entry =>
      entry.2.superSpecs.map fun bound => ⟨bound.superSpec, bound.args⟩) ++
    (facts.externalSignatures.toList.flatMap fun entry => entry.2.superSpecs) ++
      facts.canonicalSignatures.toList.flatMap fun entry => entry.2.superSpecs

theorem mem_allSupers {spec : CheckedSpecRef} {declaration : SpecDeclaration}
    (h : facts.declaration spec = .ok (some declaration)) {parent : CheckedSpecBound}
    (hparent : parent ∈ declaration.supers) : parent ∈ allSupers facts := by
  unfold SpecFacts.declaration at h
  unfold allSupers
  rw [List.mem_append, List.mem_append]
  cases spec with
  | source symbol =>
    rcases hget : facts.signatures.get symbol with _ | signature
    · simp [hget] at h
    · simp only [hget, Except.ok.injEq, Option.some.injEq] at h
      subst h
      exact Or.inl (Or.inl (List.mem_flatMap.mpr ⟨_, Map.mem_toList.mpr hget, hparent⟩))
  | external package path =>
    rcases hget : facts.externalSignatures.get ⟨package, path⟩ with _ | signature
    · simp [hget] at h
    · simp only [hget, Except.ok.injEq, Option.some.injEq] at h
      subst h
      exact Or.inl (Or.inr (List.mem_flatMap.mpr ⟨_, Map.mem_toList.mpr hget, hparent⟩))
  | canonical key =>
    rcases hget : facts.canonicalSignatures.get key with _ | signature
    · simp [hget] at h
    · simp only [hget, Except.ok.injEq, Option.some.injEq] at h
      subst h
      exact Or.inr (List.mem_flatMap.mpr ⟨_, Map.mem_toList.mpr hget, hparent⟩)
  | std => cases h

theorem finite_args (limit length : ℕ) :
    {args : List TypeId | args.length = length ∧ ∀ a ∈ args, a < limit}.Finite := by
  refine ((List.finite_length_eq (Fin limit) length).image (List.map Fin.val)).subset ?_
  rintro args ⟨hlength, hlt⟩
  refine ⟨args.attach.map fun a => ⟨a.1, hlt a.1 a.2⟩, ?_, ?_⟩
  · simpa using hlength
  · simp

theorem finite_above (store : TypeStore) (facts : SpecFacts) (portable : GenericOwner → Bool)
    (input : InputOf) :
    {p | ∃ bound, AboveBy store facts portable input bound p}.Finite := by
  have hparents : (⋃ parent ∈ {parent | parent ∈ allSupers facts},
      (fun args => facts.normalizeBound ⟨parent.spec, args⟩) ''
        {args : List TypeId | args.length = parent.args.length ∧ ∀ a ∈ args, a < store.len}).Finite :=
    (List.finite_toSet _).biUnion fun parent _ => (finite_args store.len parent.args.length).image _
  refine hparents.subset ?_
  rintro p ⟨bound, declaration, canonical, hd, parent, hparent, args, hargs, rfl⟩
  refine Set.mem_biUnion (mem_allSupers hd.found hparent) ⟨args, ⟨hargs.length_eq.symm, ?_⟩, rfl⟩
  intro a ha
  obtain ⟨b, -, hplaced⟩ := forall₂_mem_right hargs ha
  exact hplaced.lt

theorem bindersAgree_of_not_external
    (h : ∀ package path, bound.spec ≠ .external package path) :
    BindersAgree store facts portable closureInputOf declaredInputOf bound := by
  rintro declaration canonical hd parent - a - b ty - -
  have hfound := hd.found
  have hbindings := hd.bindings
  unfold canonicalBindings at hbindings
  unfold SubstitutionInput.replacement closureInputOf declaredInputOf SpecDeclaration.closureInput
  cases hspec : bound.spec with
  | source symbol =>
    rw [hspec] at hbindings
    cases hbindings
    rcases store.parameterIdentity b with _ | identity <;> rfl
  | std path =>
    rw [hspec] at hfound
    cases hfound
  | external package path => exact (h package path hspec).elim
  | canonical key =>
    have hparameters : declaration.parameters = [] := by
      rw [hspec] at hfound
      unfold SpecFacts.declaration at hfound
      rcases hget : facts.canonicalSignatures.get key with _ | signature
      · simp [hget] at hfound
      · simp only [hget, Except.ok.injEq, Option.some.injEq] at hfound
        rw [← hfound]
    have hnone : ∀ symbol, (declaration.parameterArguments bound.args).get symbol = none := by
      intro symbol
      rw [SpecDeclaration.parameterArguments, hparameters]
      rfl
    rcases store.parameterIdentity b with _ | identity
    · cases ty with
      | named name =>
        dsimp only [Option.bind_none]
        rcases name.sourceParameter with _ | symbol
        · rfl
        · exact hnone symbol
      | _ => rfl
    · rfl

/-- The external bounds of the closure are opened as they are declared. -/
def ExternalAgree (store : TypeStore) (facts : SpecFacts) (portable : GenericOwner → Bool)
    (bounds : List CheckedSpecBound) : Prop :=
  ∀ p, Evidence store facts portable bounds p →
    ∀ package path, p.spec = .external package path →
      BindersAgree store facts portable closureInputOf declaredInputOf p

theorem ExternalAgree.declared {bounds : List CheckedSpecBound}
    (h : ExternalAgree store facts portable bounds) (hp : Evidence store facts portable bounds p) :
    BindersAgree store facts portable closureInputOf declaredInputOf p := by
  by_cases hspec : ∃ package path, p.spec = .external package path
  · obtain ⟨package, path, hspec⟩ := hspec
    exact h p hp package path hspec
  · simp only [not_exists] at hspec
    exact bindersAgree_of_not_external hspec

section
variable {n : ℕ} (hn : store.existingBound ≤ n) {bounds : List CheckedSpecBound}
include hn

theorem reached_mem {p : CheckedSpecBound}
    (h : Reached facts.normalizeBound (superBounds store facts portable n) bounds.reverse p) :
    p ∈ bounds.map facts.normalizeBound ∨
      ∃ bound, AboveBy store facts portable closureInputOf bound p := by
  cases h with
  | start hmem => exact Or.inl (List.mem_map_of_mem (List.mem_reverse.mp hmem))
  | @step a b next _ hvisit hb =>
    obtain ⟨result, hrun, hspec⟩ := superBounds_spec facts portable hn a
    cases hrun.symm.trans hvisit
    exact Or.inr ⟨a, ((hspec next).mp rfl).above_iff.mpr ⟨b, hb, rfl⟩⟩

theorem closure_ok {list : List CheckedSpecBound}
    (h : closure store facts portable n bounds = some (.ok list)) :
    list.Nodup ∧ ∀ p ∈ list, ∃ parents, Opened store facts portable closureInputOf p parents := by
  obtain ⟨hnodup, hlist⟩ := explore_ok (Exploring.init _) h
  refine ⟨hnodup, fun p hp => ?_⟩
  obtain ⟨next, hvisit⟩ := (hlist p).2 hp
  obtain ⟨result, hrun, hspec⟩ := superBounds_spec facts portable hn p
  cases hrun.symm.trans hvisit
  exact ⟨next, (hspec next).mp rfl⟩

theorem closure_mem_iff (hexternal : ExternalAgree store facts portable bounds)
    {list : List CheckedSpecBound}
    (h : closure store facts portable n bounds = some (.ok list)) (p : CheckedSpecBound) :
    p ∈ list ↔ Evidence store facts portable bounds p := by
  obtain ⟨-, hlist⟩ := explore_ok (Exploring.init _) h
  rw [(hlist p).1]
  constructor
  · intro hp
    induction hp with
    | start hmem => exact .given (List.mem_reverse.mp hmem)
    | @step a b next _ hvisit hb ih =>
      obtain ⟨result, hrun, hspec⟩ := superBounds_spec facts portable hn a
      cases hrun.symm.trans hvisit
      refine .above ih ((AboveBy.congr (hexternal.declared ih)).mp ?_)
      exact ((hspec next).mp rfl).above_iff.mpr ⟨b, hb, rfl⟩
  · intro hp
    induction hp with
    | given hmem => exact .start (List.mem_reverse.mpr hmem)
    | @above bound p hbound habove ih =>
      obtain ⟨next, hvisit⟩ := (hlist bound).2 ((hlist bound).1.mpr ih)
      obtain ⟨result, hrun, hspec⟩ :=
        superBounds_spec facts portable hn bound
      cases hrun.symm.trans hvisit
      obtain ⟨q, hq, rfl⟩ := ((hspec next).mp rfl).above_iff.mp
        ((AboveBy.congr (hexternal.declared hbound)).mpr habove)
      exact .step ih hvisit hq

end

variable {target : CheckedSpecRef}

/-- The number of super-specs of a bound. -/
def superCount (facts : SpecFacts) (bound : CheckedSpecBound) : ℕ :=
  match facts.declaration bound.spec with
  | .ok (some declaration) => declaration.supers.length
  | _ => 0

theorem Opened.length (h : Opened store facts portable input bound parents) :
    parents.length = superCount facts bound := by
  unfold superCount
  cases h with
  | std h => rw [h, List.length_nil]
  | declared hd hp =>
    rw [hd.found]
    exact hp.length_eq.symm

theorem closure_returns (store : TypeStore) (facts : SpecFacts) (portable : GenericOwner → Bool)
    (bounds : List CheckedSpecBound) :
    ∃ limit, ∀ n, limit ≤ n → ∃ result, closure store facts portable n bounds = some result := by
  have hfinite := (List.finite_toSet (bounds.map facts.normalizeBound)).union
    (finite_above store facts portable closureInputOf)
  refine ⟨store.existingBound +
    (bounds.reverse.length + ∑ p ∈ hfinite.toFinset, superCount facts p), fun n hn => ?_⟩
  have hbound : store.existingBound ≤ n := (Nat.le_add_right _ _).trans hn
  have hspec := superBounds_spec facts portable hbound
  apply explore_returns_of_count
  · intro p hp
    rw [Set.Finite.mem_toFinset]
    exact reached_mem hbound hp
  · intro p _ hnone
    obtain ⟨result, hrun, -⟩ := hspec p
    cases hrun.symm.trans hnone
  · intro p _ next hvisit
    obtain ⟨result, hrun, hresult⟩ := hspec p
    cases hrun.symm.trans hvisit
    exact ((hresult next).mp rfl).length.le
  · exact (Nat.le_add_left _ _).trans hn

/-- The arguments are compared in the end, and match. -/
def Matches (store : TypeStore) (uppercase : Char → Bool) (actual expected : List TypeId) : Prop :=
  ∃ n, argsMatch store uppercase n actual expected = some true

/-- The super-specs lead from a bound to `p`, and the arguments of all bounds on the way satisfy
the bounds of their parameters. -/
def Supported (store : TypeStore) (facts : SpecFacts) (portable : GenericOwner → Bool)
    (satisfied : CheckedSpecBound → Bool) (bound p : CheckedSpecBound) : Prop :=
  ReflTransGen (fun a b => argumentsValid satisfied a = true ∧ Above store facts portable a b)
    (facts.normalizeBound bound) p ∧ argumentsValid satisfied p = true

theorem allM_mono {α : Type} {f g : α → Option Bool} {l : List α}
    (h : ∀ a ∈ l, ∀ b, f a = some b → g a = some b) {r : Bool} (hr : l.allM f = some r) :
    l.allM g = some r := by
  induction l with
  | nil => exact hr
  | cons a l ih =>
    rw [List.forall_mem_cons] at h
    rw [List.allM_cons] at hr ⊢
    obtain ⟨b, hb, hr⟩ := Option.bind_eq_some_iff.mp hr
    refine Option.bind_eq_some_iff.mpr ⟨b, h.1 b hb, ?_⟩
    cases b with
    | true => exact ih h.2 hr
    | false => exact hr

variable {uppercase : Char → Bool}

theorem argsMatch_mono {n m : ℕ} (hnm : n ≤ m) {actual expected : List TypeId} {r : Bool}
    (h : argsMatch store uppercase n actual expected = some r) :
    argsMatch store uppercase m actual expected = some r := by
  unfold argsMatch at h ⊢
  split_ifs at h ⊢
  · exact h
  · refine allM_mono (fun pair _ b hb => ?_) h
    unfold argMatches typeSame at hb ⊢
    split_ifs at hb ⊢
    · exact hb
    · obtain ⟨same, hsame, hb⟩ := Option.map_eq_some_iff.mp hb
      obtain ⟨outcome, hunify, hsame⟩ := Option.map_eq_some_iff.mp hsame
      rw [Unifier.unify_mono hnm hunify, Option.map_some, hsame, Option.map_some, hb]

theorem exceptT_bind {ε α β : Type} {x : ExceptT ε Option α} {a : α} (h : x = some (.ok a))
    (f : α → ExceptT ε Option β) : (x >>= f) = f a := by
  subst h
  rfl

theorem exceptT_mapM {ε α β : Type} {f : α → ExceptT ε Option β} {l : List α} {l' : List β}
    (h : List.Forall₂ (fun a b => f a = some (.ok b)) l l') :
    (l.mapM f : ExceptT ε Option (List β)) = some (.ok l') := by
  induction h with
  | nil => rfl
  | cons hab _ ih =>
    rw [List.mapM_cons, exceptT_bind hab, exceptT_bind ih]
    rfl

theorem instantiateSupers_eq (hσ : σ.Plain) (hn : store.existingBound ≤ n)
    {supers parents : List CheckedSpecBound} (h : List.Forall₂ (Instance store σ) supers parents) :
    instantiateSupers store n σ supers = some (.ok parents) := by
  refine exceptT_mapM (h.imp fun parent q hq => ?_)
  let single (ty : TypeId) : ExceptT TypeSubstitutionError Option TypeId :=
    (substitute .existing n σ ty (.fresh store)).map Prod.fst
  have hargs : (parent.args.mapM single : ExceptT TypeSubstitutionError Option (List TypeId)) =
      some (.ok q.args) := by
    refine exceptT_mapM (hq.args.imp fun a r hr => ?_)
    obtain ⟨result, after, hrun, -, hspec⟩ :=
      substitute_existing hσ (.fresh store σ) a ((walkBound_le σ store).trans hn)
    obtain rfl := (hspec r).mpr hr
    change (substitute .existing n σ a (.fresh store)).map Prod.fst = _
    rw [hrun]
    rfl
  rw [exceptT_bind hargs]
  obtain ⟨spec, args⟩ := q
  obtain ⟨hspec, -⟩ := hq
  cases hspec
  rfl

variable {satisfied : CheckedSpecBound → Bool}

/-- One turn at a bound that is opened: only the comparison may be missing. -/
theorem entailsStep_opened (hn : store.existingBound ≤ n)
    {expected : List TypeId} (h : Opened store facts portable entailsInputOf bound parents)
    (hvalid : argumentsValid satisfied bound = true) :
    entailsStep store facts portable uppercase satisfied n target expected bound =
      match if bound.spec = target then argsMatch store uppercase n bound.args expected
        else some false with
      | none => none
      | some true => some (.error true)
      | some false => some (.ok parents) := by
  unfold entailsStep
  rw [hvalid, if_neg (by decide)]
  rcases (if bound.spec = target then argsMatch store uppercase n bound.args expected
    else some false) with _ | _ | _
  · rfl
  · dsimp only
    cases h with
    | std h => rw [h]
    | @declared declaration canonical _ hd hp =>
      rw [hd.found]
      dsimp only
      rw [if_neg (not_not.mpr hd.arity), hd.bindings]
      dsimp only
      rw [instantiateSupers_eq (entailsInput_plain declaration bound.args canonical) hn hp]
  · rfl

theorem entailsStep_invalid {expected : List TypeId}
    (hvalid : argumentsValid satisfied bound = false) :
    entailsStep store facts portable uppercase satisfied n target expected bound =
      some (.ok []) := by
  unfold entailsStep
  rw [hvalid]
  rfl

section
variable {uppercase : Char → Bool} {satisfied : CheckedSpecBound → Bool} {n : ℕ}
  {target : CheckedSpecRef} {expected : List TypeId} {bounds list : List CheckedSpecBound}

/-- Every bound of the list is opened by both engines alike. -/
def OpenedAlike (store : TypeStore) (facts : SpecFacts) (portable : GenericOwner → Bool)
    (list : List CheckedSpecBound) : Prop :=
  ∀ p ∈ list, ∃ parents, Opened store facts portable entailsInputOf p parents ∧
    ∀ q, Above store facts portable p q ↔ ∃ r ∈ parents, facts.normalizeBound r = q

variable (hn : store.existingBound ≤ n) (hopened : OpenedAlike store facts portable list)
  (hlist : ∀ p, p ∈ list ↔ Evidence store facts portable bounds p) (hbound : bound ∈ bounds)
include hn hopened hlist hbound

theorem entails_reached {a : CheckedSpecBound}
    (h : Reached facts.normalizeBound
      (entailsStep store facts portable uppercase satisfied n target expected) [bound] a) :
    a ∈ list ∧ ReflTransGen
      (fun a b => argumentsValid satisfied a = true ∧ Above store facts portable a b)
      (facts.normalizeBound bound) a := by
  induction h with
  | start hmem =>
    rw [List.mem_singleton.mp hmem]
    exact ⟨(hlist _).mpr (.given hbound), .refl⟩
  | @step a b next _ hvisit hb ih =>
    obtain ⟨hmem, hpath⟩ := ih
    obtain ⟨parents, hparents, habove⟩ := hopened a hmem
    cases hvalid : argumentsValid satisfied a with
    | false =>
      rw [entailsStep_invalid hvalid] at hvisit
      cases hvisit
      cases hb
    | true =>
      rw [entailsStep_opened hn hparents hvalid] at hvisit
      split at hvisit
      · cases hvisit
      · cases hvisit
      · cases hvisit
        have hab := (habove _).mpr ⟨b, hb, rfl⟩
        exact ⟨(hlist _).mpr (.above ((hlist a).mp hmem) hab), hpath.tail ⟨hvalid, hab⟩⟩

theorem entails_iff {answer : Bool}
    (h : entails store facts portable uppercase satisfied n bound target expected = some answer) :
    answer = true ↔ ∃ p ∈ list, p.spec = facts.normalize target ∧
      Matches store uppercase p.args expected ∧
        Supported store facts portable satisfied bound p := by
  unfold entails at h
  obtain ⟨result, hrun, hanswer⟩ := Option.map_eq_some_iff.mp h
  cases result with
  | error answer' =>
    obtain rfl : answer' = answer := hanswer
    obtain ⟨a, hreached, hvisit⟩ := explore_error (Exploring.init _) hrun
    obtain ⟨hmem, hpath⟩ := entails_reached hn hopened hlist hbound hreached
    obtain ⟨parents, hparents, -⟩ := hopened a hmem
    cases hvalid : argumentsValid satisfied a with
    | false =>
      rw [entailsStep_invalid hvalid] at hvisit
      cases hvisit
    | true =>
      rw [entailsStep_opened hn hparents hvalid] at hvisit
      split at hvisit
      · cases hvisit
      · next hmatch =>
        cases hvisit
        refine iff_of_true rfl ⟨a, hmem, ?_⟩
        split_ifs at hmatch with htarget
        · exact ⟨htarget, ⟨n, hmatch⟩, hpath, hvalid⟩
        · cases hmatch
      · cases hvisit
  | ok seen =>
    obtain rfl : false = answer := hanswer
    refine iff_of_false Bool.false_ne_true ?_
    rintro ⟨p, hp, htarget, ⟨m, hmatch⟩, hpath, hvalid⟩
    obtain ⟨-, hseen⟩ := explore_ok (Exploring.init _) hrun
    -- nothing has stopped the search, so it has followed the whole way to `p`
    have hreached : Reached facts.normalizeBound
        (entailsStep store facts portable uppercase satisfied n (facts.normalize target) expected)
        [bound] p := by
      clear htarget hmatch hvalid hp
      induction hpath with
      | refl => exact .start (List.mem_singleton_self bound)
      | @tail a b _ hstep ih =>
        obtain ⟨hvalid, hab⟩ := hstep
        obtain ⟨hmem, -⟩ := entails_reached hn hopened hlist hbound ih
        obtain ⟨parents, hparents, habove⟩ := hopened a hmem
        obtain ⟨next, hvisit⟩ := (hseen a).2 ((hseen a).1.mpr ih)
        have hnext := hvisit
        rw [entailsStep_opened hn hparents hvalid] at hnext
        split at hnext
        · cases hnext
        · cases hnext
        · cases hnext
          obtain ⟨r, hr, rfl⟩ := (habove b).mp hab
          exact .step ih hvisit hr
    obtain ⟨hmem, -⟩ := entails_reached hn hopened hlist hbound hreached
    obtain ⟨parents, hparents, -⟩ := hopened p hmem
    obtain ⟨next, hvisit⟩ := (hseen p).2 ((hseen p).1.mpr hreached)
    rw [entailsStep_opened hn hparents hvalid, if_pos htarget] at hvisit
    rcases hcompare : argsMatch store uppercase n p.args expected with _ | _ | _
    · rw [hcompare] at hvisit
      cases hvisit
    · -- one comparison has one answer
      have hlow := argsMatch_mono (le_max_left n m) hcompare
      have hhigh := argsMatch_mono (le_max_right n m) hmatch
      cases hlow.symm.trans hhigh
    · rw [hcompare] at hvisit
      cases hvisit

theorem entails_returns
    (hcompare : ∀ p ∈ list, p.spec = facts.normalize target →
      (argsMatch store uppercase n p.args expected).isSome = true)
    (hcount : 1 + ∑ p ∈ list.toFinset, superCount facts p ≤ n) :
    ∃ answer, entails store facts portable uppercase satisfied n bound target expected =
      some answer := by
  have hsteps : ∀ p ∈ list, entailsStep store facts portable uppercase satisfied n
      (facts.normalize target) expected p ≠ none := by
    intro p hp hnone
    obtain ⟨parents, hparents, -⟩ := hopened p hp
    cases hvalid : argumentsValid satisfied p with
    | false =>
      rw [entailsStep_invalid hvalid] at hnone
      cases hnone
    | true =>
      rw [entailsStep_opened hn hparents hvalid] at hnone
      by_cases htarget : p.spec = facts.normalize target
      · obtain ⟨r, hr⟩ := Option.isSome_iff_exists.mp (hcompare p hp htarget)
        rw [if_pos htarget, hr] at hnone
        cases r <;> cases hnone
      · rw [if_neg htarget] at hnone
        cases hnone
  obtain ⟨result, hrun⟩ : ∃ result, explore facts.normalizeBound
      (entailsStep store facts portable uppercase satisfied n (facts.normalize target) expected) n
      [bound] [] = some result := by
    apply explore_returns_of_count
    · intro p hp
      exact List.mem_toFinset.mpr (entails_reached hn hopened hlist hbound hp).1
    · intro p hp
      exact hsteps p (entails_reached hn hopened hlist hbound hp).1
    · intro p hp next hvisit
      obtain ⟨parents, hparents, -⟩ := hopened p (List.mem_toFinset.mp hp)
      cases hvalid : argumentsValid satisfied p with
      | false =>
        rw [entailsStep_invalid hvalid] at hvisit
        cases hvisit
        exact Nat.zero_le _
      | true =>
        rw [entailsStep_opened hn hparents hvalid] at hvisit
        split at hvisit
        · cases hvisit
        · cases hvisit
        · cases hvisit
          exact hparents.length.le
    · exact hcount
  unfold entails
  rw [hrun]
  exact ⟨_, rfl⟩

end

/-- The closure returns. What it lists are the given bounds and those above them, each once; and a
spec is entailed by a given bound where a listed bound that it supports matches the spec. -/
theorem closure_evidence (store : TypeStore) (facts : SpecFacts) (portable : GenericOwner → Bool)
    (bounds : List CheckedSpecBound) (hexternal : ExternalAgree store facts portable bounds) :
    ∃ limit, ∀ n, limit ≤ n → ∃ result, closure store facts portable n bounds = some result ∧
      ∀ list, result = .ok list →
        list.Nodup ∧ (∀ p, p ∈ list ↔ Evidence store facts portable bounds p) ∧
        ((∀ p ∈ list, BindersAgree store facts portable closureInputOf entailsInputOf p) →
          ∀ (uppercase : Char → Bool) (satisfied : CheckedSpecBound → Bool)
            (target : CheckedSpecRef) (expected : List TypeId), ∃ limit, ∀ m, limit ≤ m →
              ∀ bound ∈ bounds,
                (∀ answer, entails store facts portable uppercase satisfied m bound target
                    expected = some answer →
                  (answer = true ↔ ∃ p ∈ list, p.spec = facts.normalize target ∧
                    Matches store uppercase p.args expected ∧
                      Supported store facts portable satisfied bound p)) ∧
                ((∀ p ∈ list, p.spec = facts.normalize target →
                    (argsMatch store uppercase m p.args expected).isSome = true) →
                  ∃ answer, entails store facts portable uppercase satisfied m bound target
                    expected = some answer)) := by
  obtain ⟨limit, hreturns⟩ := closure_returns store facts portable bounds
  refine ⟨limit + store.existingBound, fun n hn => ?_⟩
  obtain ⟨result, hresult⟩ := hreturns n ((Nat.le_add_right _ _).trans hn)
  have hlarge : store.existingBound ≤ n := (Nat.le_add_left _ _).trans hn
  refine ⟨result, hresult, fun list hok => ?_⟩
  subst hok
  obtain ⟨hnodup, hopened⟩ := closure_ok hlarge hresult
  have hlist := closure_mem_iff hlarge hexternal hresult
  refine ⟨hnodup, hlist, fun hentails uppercase satisfied target expected => ?_⟩
  have halike : OpenedAlike store facts portable list := by
    intro p hp
    obtain ⟨parents, hparents⟩ := hopened p hp
    refine ⟨parents, hparents.congr (hentails p hp), fun q => ?_⟩
    rw [← hparents.above_iff]
    exact (AboveBy.congr (hexternal.declared ((hlist p).mp hp))).symm
  refine ⟨store.existingBound + (1 + ∑ p ∈ list.toFinset, superCount facts p),
    fun m hm bound hbound => ⟨fun answer h => ?_, fun hcompare => ?_⟩⟩
  · exact entails_iff ((Nat.le_add_right _ _).trans hm) halike hlist hbound h
  · exact entails_returns ((Nat.le_add_right _ _).trans hm) halike hlist hbound hcompare
      ((Nat.le_add_left _ _).trans hm)

end

/-- A type parameter, a type for it, and a name that stands for any type. -/
def evidenceStore : TypeStore :=
  { TypeStore.new with types := [.named ⟨"T", some 5⟩, .primitive .bool, .named ⟨"A", none⟩] }

/-- A generic source spec below another one. -/
def sourceFacts : SpecFacts :=
  { canonicalSignatures := ∅
    externalSignatures := ∅
    externalAliases := ∅
    signatures := .ofList [(1, ⟨[5], ["T"], [⟨.source 2, [0]⟩]⟩), (2, ⟨[6], ["U"], []⟩)]
    typeParamBounds := ∅
    stdSpecAliases := ∅ }

/-- The source specs, and an external spec that fixes the argument of the one above it. -/
def mixedFacts : SpecFacts :=
  { sourceFacts with
    externalSignatures := .ofList
      [(⟨0, ["Wide"]⟩, ⟨["A"], [⟨.external 0 ["Base"], [1]⟩]⟩), (⟨0, ["Base"]⟩, ⟨["U"], []⟩)] }

def mixedBounds : List CheckedSpecBound := [⟨.source 1, [1]⟩, ⟨.external 0 ["Wide"], [1]⟩]

private theorem mixedFacts_agree {other : InputOf}
    (hother : other = declaredInputOf ∨ other = entailsInputOf) (p : CheckedSpecBound) :
    BindersAgree evidenceStore mixedFacts (fun _ => true) closureInputOf other p := by
  obtain ⟨spec, args⟩ := p
  intro declaration canonical hd parent hparent a ha b ty hreach hget
  have hfound := hd.found
  have harity := hd.arity
  cases spec with
  | std => cases hfound
  | canonical => cases hfound
  | source symbol =>
    unfold SpecFacts.declaration at hfound
    rcases hsignature : mixedFacts.signatures.get symbol with _ | signature
    · simp [hsignature] at hfound
    simp only [hsignature, Except.ok.injEq, Option.some.injEq] at hfound
    have hmem := Map.get_ofList_eq_some hsignature
    simp only [List.mem_cons, Prod.mk.injEq, List.not_mem_nil, or_false] at hmem
    obtain ⟨rfl, rfl⟩ | ⟨rfl, rfl⟩ := hmem
    · subst hfound
      obtain ⟨r, rfl⟩ := List.length_eq_one_iff.mp harity.symm
      obtain rfl := List.mem_singleton.mp hparent
      obtain rfl := List.mem_singleton.mp ha
      have hb : b = 0 := by
        rcases ReflTransGen.cases_head hreach with rfl | ⟨c, hc, -⟩
        · rfl
        · unfold Needs needsList at hc
          split at hc
          · cases hc
          · next heq =>
            cases heq
            dsimp only at hc
            split at hc <;> cases hc
      subst hb
      cases hget
      rcases hother with rfl | rfl <;> rfl
    · subst hfound
      cases hparent
  | external package path =>
    unfold SpecFacts.declaration at hfound
    rcases hsignature : mixedFacts.externalSignatures.get ⟨package, path⟩ with _ | signature
    · simp [hsignature] at hfound
    simp only [hsignature, Except.ok.injEq, Option.some.injEq] at hfound
    have hmem := Map.get_ofList_eq_some hsignature
    simp only [List.mem_cons, Prod.mk.injEq, List.not_mem_nil, or_false] at hmem
    obtain ⟨-, rfl⟩ | ⟨-, rfl⟩ := hmem
    · subst hfound
      obtain rfl := List.mem_singleton.mp hparent
      obtain rfl := List.mem_singleton.mp ha
      have hb : b = 1 := by
        rcases ReflTransGen.cases_head hreach with rfl | ⟨c, hc, -⟩
        · rfl
        · cases hc
      subst hb
      cases hget
      rcases hother with rfl | rfl <;> rfl
    · subst hfound
      cases hparent

theorem closure_evidence_mixed :
    ∃ limit, ∀ n, limit ≤ n → ∃ result,
      closure evidenceStore mixedFacts (fun _ => true) n mixedBounds = some result ∧
        ∀ list, result = .ok list → list.Nodup ∧
          (∀ p, p ∈ list ↔ Evidence evidenceStore mixedFacts (fun _ => true) mixedBounds p) ∧
          ∀ target expected, ∃ limit, ∀ m, limit ≤ m → ∀ bound ∈ mixedBounds, ∀ answer,
            entails evidenceStore mixedFacts (fun _ => true) Char.isUpper (fun _ => true) m bound
                target expected = some answer →
              (answer = true ↔ ∃ p ∈ list, p.spec = mixedFacts.normalize target ∧
                Matches evidenceStore Char.isUpper p.args expected ∧
                  Supported evidenceStore mixedFacts (fun _ => true) (fun _ => true) bound p) := by
  obtain ⟨limit, h⟩ := closure_evidence evidenceStore mixedFacts (fun _ => true) mixedBounds
    fun p _ _ _ _ => mixedFacts_agree (.inl rfl) p
  refine ⟨limit, fun n hn => ?_⟩
  obtain ⟨result, hresult, hlist⟩ := h n hn
  refine ⟨result, hresult, fun list hok => ?_⟩
  obtain ⟨hnodup, hmem, hentails⟩ := hlist list hok
  refine ⟨hnodup, hmem, fun target expected => ?_⟩
  obtain ⟨limit, hlimit⟩ := hentails (fun p _ => mixedFacts_agree (.inr rfl) p) Char.isUpper
    (fun _ => true) target expected
  exact ⟨limit, fun m hm bound hbound => (hlimit m hm bound hbound).1⟩

/-- A generic external spec below another one. -/
def externalFacts : SpecFacts :=
  { sourceFacts with
    signatures := ∅
    externalSignatures := .ofList
      [(⟨0, ["Wide"]⟩, ⟨["T"], [⟨.external 0 ["Base"], [0]⟩]⟩), (⟨0, ["Base"]⟩, ⟨["U"], []⟩)] }

/-- A schematic argument matches every type, so `entails` reports what is not in the closure. The
closure also keeps the name of the parameter of an external spec, which `entails` replaces. -/
theorem entails_not_closure :
    closure evidenceStore sourceFacts (fun _ => true) 40 [⟨.source 1, [1]⟩] =
        some (.ok [⟨.source 1, [1]⟩, ⟨.source 2, [1]⟩]) ∧
      entails evidenceStore sourceFacts (fun _ => true) Char.isUpper (fun _ => true) 40
        ⟨.source 1, [1]⟩ (.source 2) [2] = some true ∧
      closure evidenceStore externalFacts (fun _ => true) 40 [⟨.external 0 ["Wide"], [1]⟩] =
        some (.ok [⟨.external 0 ["Wide"], [1]⟩, ⟨.external 0 ["Base"], [0]⟩]) ∧
      entails evidenceStore externalFacts (fun _ => true) Char.isUpper (fun _ => true) 40
        ⟨.external 0 ["Wide"], [1]⟩ (.external 0 ["Base"]) [1] = some true := by
  refine ⟨?_, ?_, ?_, ?_⟩ <;> decide

end EtasFrontend.Solver
