import EtasFrontend.Lib.Graph
import EtasFrontend.Types.Unifier

/-! The graph a unifier works on: nodes of the store, their components, and the bindings of
variables. The loop of `resolve` and the occurs check are described by paths in it. -/
namespace EtasFrontend.Types
open Lib Relation

/-- `b` is a component of the node `a`. -/
def Component (store : TypeStore) (a b : TypeId) : Prop :=
  ∃ ty, store.get a = some ty ∧ b ∈ ty.children

/-- No type is part of itself. -/
def TypeStore.WellFormed (store : TypeStore) : Prop := Acyclic (Component store)

theorem TypeStore.wellFormed_of_lt {store : TypeStore}
    (h : ∀ e ∈ store.allTypes.zipIdx, ∀ b ∈ e.1.children, b < e.2) : store.WellFormed := by
  have hlt : ∀ {a b}, TransGen (Component store) a b → b < a := by
    have hstep : ∀ {a b}, Component store a b → b < a := by
      rintro a b ⟨ty, hty, hb⟩
      rw [TypeStore.get_eq] at hty
      exact h (ty, a) (List.mem_zipIdx_iff_getElem?.mpr hty) b hb
    intro a b hab
    induction hab with
    | single h => exact hstep h
    | tail _ h ih => exact (hstep h).trans ih
  exact fun a ha => lt_irrefl a (hlt ha)

section
variable (store : TypeStore) (lookup : TypeVarId → Option TypeId)

/-- `a` is a variable bound to `b`. -/
def Binding (a b : TypeId) : Prop := ∃ v, store.get a = some (.var v) ∧ lookup v = some b

def Edge (a b : TypeId) : Prop := Component store a b ∨ Binding store lookup a b

def Reaches : TypeId → TypeId → Prop := ReflTransGen (Edge store lookup)

/-- `v` is met on some path from `ty`, through components and bindings. -/
def OccursIn (v : TypeVarId) (ty : TypeId) : Prop :=
  ∃ a, Reaches store lookup ty a ∧ store.get a = some (.var v)

/-- No variable occurs in the type it is bound to. -/
def AcyclicBindings : Prop := ∀ v ty, lookup v = some ty → ¬ OccursIn store lookup v ty

end

/-! Which occurrences the check looks at. -/

def Ty.rowRefs (ty : Ty) : List TypeId := ty.occursRows.flatMap EffectRowRef.refs

/-- The components the check never looks at. -/
def Ty.skippedRefs : Ty → List TypeId
  | .applied constructor args => constructor :: args
  | .refined base _ => [base]
  | _ => []

section
variable (store : TypeStore) (lookup : TypeVarId → Option TypeId)

/-- `b` is a component of `a` where the check misses occurrences of `v`: it does not enter
applications and refinements, and of a row argument it sees only the variable itself. -/
def Skipped (v : TypeVarId) (a b : TypeId) : Prop :=
  ∃ ty, store.get a = some ty ∧
    (b ∈ ty.skippedRefs ∨ b ∈ ty.rowRefs ∧ store.get b ≠ some (.var v))

/-- `v` occurs below a skipped component. -/
def SkippedOccurs (v : TypeVarId) (ty : TypeId) : Prop :=
  ∃ a b, Reaches store lookup ty a ∧ Skipped store v a b ∧ OccursIn store lookup v b

def SeenEdge (a b : TypeId) : Prop :=
  (∃ ty, store.get a = some ty ∧ b ∈ ty.occursRefs) ∨ Binding store lookup a b

/-- `v` is the node itself or an argument of one of its rows. -/
def SeenAt (v : TypeVarId) (a : TypeId) : Prop :=
  store.get a = some (.var v) ∨
    ∃ ty, store.get a = some ty ∧ ∃ b ∈ ty.rowRefs, store.get b = some (.var v)

/-- `v` occurs where the check looks. -/
def SeenOccurs (v : TypeVarId) (ty : TypeId) : Prop :=
  ∃ a, ReflTransGen (SeenEdge store lookup) ty a ∧ SeenAt store v a

end

theorem EffectRowRef.mem_refs {row : EffectRowRef} {b : TypeId} :
    b ∈ row.refs ↔ ∃ effect ∈ row.effects, .type b ∈ effect.args := by
  simp only [refs, EffectRef.refs, List.mem_flatMap]
  constructor
  · rintro ⟨effect, he, arg, ha, hb⟩
    cases arg with
    | type ty => exact ⟨effect, he, by simpa [EffectArgRef.refs] using List.mem_singleton.mp hb ▸ ha⟩
    | path _ | string _ | int _ | wildcard => cases hb
  · rintro ⟨effect, he, ha⟩
    exact ⟨effect, he, _, ha, List.mem_singleton.mpr rfl⟩

theorem Ty.mem_children (ty : Ty) (b : TypeId) :
    b ∈ ty.children ↔ b ∈ ty.occursRefs ∨ b ∈ ty.rowRefs ∨ b ∈ ty.skippedRefs := by
  unfold children rowRefs
  cases ty with
  | function flow =>
    cases he : flow.effects <;>
      simp [constructorRefs, refs, occursRefs, occursRows, skippedRefs, optionRowRefs, he, or_assoc]
  | handler h =>
    cases he : h.produced <;>
      simp [constructorRefs, refs, occursRefs, occursRows, skippedRefs, he,
        HandlerProducedEffects.refs] <;> tauto
  | continuation c =>
    cases he : c.residualEffects <;>
      simp [constructorRefs, refs, occursRefs, occursRows, skippedRefs, optionRowRefs, he, or_assoc]
  | resourceHandle h =>
    cases h <;> simp [constructorRefs, refs, occursRefs, occursRows, skippedRefs]
  | _ => simp [constructorRefs, refs, occursRefs, occursRows, skippedRefs]

variable {store : TypeStore} {lookup : TypeVarId → Option TypeId} {v : TypeVarId} {a b : TypeId}

theorem OccursIn.step (h : Edge store lookup a b) (hb : OccursIn store lookup v b) :
    OccursIn store lookup v a := by
  obtain ⟨c, hc, hv⟩ := hb
  exact ⟨c, .head h hc, hv⟩

theorem OccursIn.trans (h : Reaches store lookup a b) (hb : OccursIn store lookup v b) :
    OccursIn store lookup v a := by
  obtain ⟨c, hc, hv⟩ := hb
  exact ⟨c, ReflTransGen.trans h hc, hv⟩

theorem Skipped.edge (h : Skipped store v a b) : Edge store lookup a b := by
  obtain ⟨ty, hty, hb | ⟨hb, -⟩⟩ := h
  · exact Or.inl ⟨ty, hty, (ty.mem_children b).mpr (Or.inr (Or.inr hb))⟩
  · exact Or.inl ⟨ty, hty, (ty.mem_children b).mpr (Or.inr (Or.inl hb))⟩

theorem SeenEdge.edge (h : SeenEdge store lookup a b) : Edge store lookup a b := by
  rcases h with ⟨ty, hty, hb⟩ | hb
  · exact Or.inl ⟨ty, hty, (ty.mem_children b).mpr (Or.inl hb)⟩
  · exact Or.inr hb

theorem SeenAt.occursIn {a : TypeId} (h : SeenAt store v a) : OccursIn store lookup v a := by
  rcases h with hv | ⟨ty, hty, b, hb, hv⟩
  · exact ⟨a, .refl, hv⟩
  · exact ⟨b, .single (Or.inl ⟨ty, hty, (ty.mem_children b).mpr (Or.inr (Or.inl hb))⟩), hv⟩

theorem Edge.seen_or_skipped (h : Edge store lookup a b) :
    SeenEdge store lookup a b ∨ SeenAt store v a ∨ Skipped store v a b := by
  rcases h with ⟨ty, hty, hb⟩ | hb
  · rcases (ty.mem_children b).mp hb with hb | hb | hb
    · exact Or.inl (Or.inl ⟨ty, hty, hb⟩)
    · by_cases hv : store.get b = some (.var v)
      · exact Or.inr (Or.inl (Or.inr ⟨ty, hty, b, hb, hv⟩))
      · exact Or.inr (Or.inr ⟨ty, hty, Or.inr ⟨hb, hv⟩⟩)
    · exact Or.inr (Or.inr ⟨ty, hty, Or.inl hb⟩)
  · exact Or.inl (Or.inr hb)

theorem occursIn_iff (v : TypeVarId) (ty : TypeId) :
    OccursIn store lookup v ty ↔
      SeenOccurs store lookup v ty ∨ SkippedOccurs store lookup v ty := by
  constructor
  · rintro ⟨c, hc, hv⟩
    induction hc using ReflTransGen.head_induction_on with
    | refl => exact Or.inl ⟨c, .refl, Or.inl hv⟩
    | @head a b hab hbc ih =>
      rcases hab.seen_or_skipped (v := v) with hs | ha | hs
      · rcases ih with ⟨d, hd, hat⟩ | ⟨d, e, hd, hde, he⟩
        · exact Or.inl ⟨d, .head hs hd, hat⟩
        · exact Or.inr ⟨d, e, .head hab hd, hde, he⟩
      · exact Or.inl ⟨a, .refl, ha⟩
      · exact Or.inr ⟨a, b, .refl, hs, c, hbc, hv⟩
  · rintro (⟨a, ha, hat⟩ | ⟨a, b, ha, hab, hb⟩)
    · exact hat.occursIn.trans (ReflTransGen.mono (fun _ _ h => h.edge) _ _ ha)
    · exact (hb.step hab.edge).trans ha

theorem acyclic_edge_iff (hs : store.WellFormed) :
    Acyclic (Edge store lookup) ↔ AcyclicBindings store lookup := by
  constructor
  · rintro h v ty hv ⟨a, hr, ha⟩
    exact h a (.head' (Or.inr ⟨v, ha, hv⟩) hr)
  · intro h a ha
    rcases transGen_or_passes (fun _ _ h => h) ha with hc | ⟨b, c, hab, ⟨v, hv, hl⟩, hca⟩
    · exact hs a hc
    · exact h v c hl ⟨b, ReflTransGen.trans hca hab, hv⟩

theorem edge_source_lt (h : Edge store lookup a b) : a < store.len := by
  rcases h with ⟨ty, hty, -⟩ | ⟨v, hv, -⟩
  · exact TypeStore.lt_len_of_get hty
  · exact TypeStore.lt_len_of_get hv

theorem edge_wellFounded (h : Acyclic (Edge store lookup)) :
    WellFounded fun b a => TransGen (Edge store lookup) a b :=
  h.wellFounded (Set.finite_lt_nat store.len) fun _ _ => edge_source_lt

/-- `lookup` with `v` bound to `ty`. -/
def bound (lookup : TypeVarId → Option TypeId) (v : TypeVarId) (ty : TypeId) :
    TypeVarId → Option TypeId :=
  fun w => if w = v then some ty else lookup w

/-- Binding an unbound variable keeps the graph acyclic exactly when the variable does not occur
in the type. -/
theorem acyclic_bound_iff (ha : Acyclic (Edge store lookup)) {ty : TypeId} (hv : lookup v = none) :
    Acyclic (Edge store (bound lookup v ty)) ↔ ¬ OccursIn store lookup v ty := by
  have hold : ∀ a b, Edge store lookup a b → Edge store (bound lookup v ty) a b := by
    rintro a b (h | ⟨w, hw, hl⟩)
    · exact Or.inl h
    · refine Or.inr ⟨w, hw, ?_⟩
      have : w ≠ v := by
        rintro rfl
        rw [hv] at hl
        cases hl
      simp [bound, this, hl]
  have hnew : ∀ a b, Edge store (bound lookup v ty) a b →
      Edge store lookup a b ∨ (a ∈ {a | store.get a = some (.var v)} ∧ b = ty) := by
    rintro a b (h | ⟨w, hw, hl⟩)
    · exact Or.inl (Or.inl h)
    · simp only [bound] at hl
      split_ifs at hl with hwv
      · subst hwv
        exact Or.inr ⟨hw, (Option.some.inj hl).symm⟩
      · exact Or.inl (Or.inr ⟨w, hw, hl⟩)
  constructor
  · rintro h ⟨a, hr, hget⟩
    have hstep : Edge store (bound lookup v ty) a ty := Or.inr ⟨v, hget, by simp [bound]⟩
    exact h a (.head' hstep (ReflTransGen.mono hold _ _ hr))
  · intro hno a hcyc
    obtain ⟨b, hab, hba⟩ := TransGen.head'_iff.mp hcyc
    rcases hnew a b hab with hr | ⟨hav, rfl⟩
    · rcases reflTransGen_of_added_edges hnew hba with h | ⟨⟨c, hc, hbc⟩, hta⟩
      · exact ha a (.head' hr h)
      · exact hno ⟨c, (hta.tail hr).trans hbc, hc⟩
    · rcases reflTransGen_of_added_edges hnew hba with h | ⟨⟨c, hc, hbc⟩, -⟩
      · exact hno ⟨a, h, hav⟩
      · exact hno ⟨c, hbc, hc⟩

end EtasFrontend.Types
