import EtasFrontend.Types.TypeTree
import EtasFrontend.Types.UnifierRun

/-! Soundness of `unify`: after a successful call the two types, with the bindings applied, are
the same tree up to what the unifier leaves open. -/
namespace EtasFrontend.Types
open Lib Relation

/-! Trees that count as the same. -/

/-- Same members and same tail. -/
def SameRow {ρ : Type} (r s : EffectRowRef ρ) : Prop :=
  r.tail = s.tail ∧ ∀ e, e ∈ r.effects ↔ e ∈ s.effects

def SameOptionRow {ρ : Type} : Option (EffectRowRef ρ) → Option (EffectRowRef ρ) → Prop
  | none, none => True
  | some r, some s => SameRow r s
  | _, _ => False

/-- A node without its components. -/
def Ty.shape {ρ : Type} (ty : Ty ρ) : Ty Unit := ty.mapRefs fun _ => ()

/-- The nodes that are compared component by component, in order. -/
def Ty.Positional {ρ : Type} : Ty ρ → Prop
  | .existential _ | .primitive _ | .array _ | .list _ | .map _ _ | .set _ | .range _ | .slice _
  | .option _ | .result _ _ | .tuple _ | .schedulerHandle | .trust _ _ | .schema _ | .message _
  | .memorySelection _ | .store _ _ | .memoryRegion _ | .resourceHandle _ => True
  | _ => False

/-- `Alike lenient erase contract s t`: the trees are equal up to the relaxations of the unifier.
Those of the integer literals, of the order of record fields, of the rows of functions outside
contract mode and of absent handler results always apply; the others only when `lenient`. `erase`
lets an application stand for its read-only view. -/
inductive Alike (lenient : Bool) : Bool → Bool → TypeTree → TypeTree → Prop
  | refl {erase contract : Bool} (t : TypeTree) : Alike lenient erase contract t t
  | positional {erase contract : Bool} {f g : NodeFacts} {a b : Ty TypeTree} (hp : a.Positional)
      (hs : a.shape = b.shape)
      (h : ∀ p ∈ a.refs.zip b.refs, Alike lenient erase contract p.1 p.2) :
      Alike lenient erase contract (.node f a) (.node g b)
  | literal {erase contract : Bool} {f g : NodeFacts} {text : String} {p : PrimitiveType}
      (hp : isIntegerPrimitive p = true) :
      Alike lenient erase contract (.node f (.integerLiteral text)) (.node g (.primitive p))
  | ofLiteral {erase contract : Bool} {f g : NodeFacts} {text : String} {p : PrimitiveType}
      (hp : isIntegerPrimitive p = true) :
      Alike lenient erase contract (.node f (.primitive p)) (.node g (.integerLiteral text))
  | literals {erase contract : Bool} {f g : NodeFacts} {s t : String} (hx : lenient ∨ s = t) :
      Alike lenient erase contract (.node f (.integerLiteral s)) (.node g (.integerLiteral t))
  | record {erase contract : Bool} {f g : NodeFacts} {a b : RecordType TypeTree}
      (other : FieldType TypeTree → FieldType TypeTree)
      (hx : lenient ∨ (a.fields.map FieldType.name).Nodup)
      (hlen : a.fields.length = b.fields.length)
      (hfind : ∀ x ∈ a.fields, b.fields.find? (·.name == x.name) = some (other x))
      (h : ∀ x ∈ a.fields, Alike lenient erase contract x.ty (other x).ty) :
      Alike lenient erase contract (.node f (.record a)) (.node g (.record b))
  | function {erase contract : Bool} {f g : NodeFacts} {a b : FlowType TypeTree}
      (hrow : contract → SameOptionRow a.effects b.effects)
      (hlen : a.input.length = b.input.length)
      (hin : ∀ p ∈ a.input.zip b.input, Alike lenient false contract p.1 p.2)
      (hout : Alike lenient false contract a.output b.output) :
      Alike lenient erase contract (.node f (.function a)) (.node g (.function b))
  | handler {erase contract : Bool} {f g : NodeFacts} {a b : HandlerType TypeTree}
      (hrow : a.handled = b.handled) (hx : lenient ∨ a.produced = b.produced)
      (h : ∀ s ∈ a.result, ∀ t ∈ b.result, Alike lenient erase contract s t) :
      Alike lenient erase contract (.node f (.handler a)) (.node g (.handler b))
  | task {erase contract : Bool} {f g : NodeFacts} {a b : TaskType TypeTree}
      (hrow : SameRow a.effects b.effects) (hx : lenient ∨ a.effects = b.effects)
      (h : Alike lenient erase contract a.output b.output) :
      Alike lenient erase contract (.node f (.task a)) (.node g (.task b))
  | continuation {erase contract : Bool} {f g : NodeFacts} {a b : ContinuationType TypeTree}
      (hrow : SameOptionRow a.residualEffects b.residualEffects)
      (hx : lenient ∨ a.residualEffects = b.residualEffects ∧
        a.handledAnswer.isSome = b.handledAnswer.isSome)
      (hout : Alike lenient erase contract a.actionOutput b.actionOutput)
      (h : ∀ s ∈ a.handledAnswer, ∀ t ∈ b.handledAnswer, Alike lenient erase contract s t) :
      Alike lenient erase contract (.node f (.continuation a)) (.node g (.continuation b))
  | named {erase contract : Bool} {f g : NodeFacts} {a b : NamedTypeRef}
      (hid : f.parameter = g.parameter) (h : f.parameter = none → a = b) (hx : lenient ∨ a = b) :
      Alike lenient erase contract (.node f (.named a)) (.node g (.named b))
  | nominal {erase contract : Bool} {f g : NodeFacts} {a b : NominalTypeRef}
      (hid : f.nominal = g.nominal) (h : f.nominal = none → a.name = b.name)
      (hx : lenient ∨ a = b) :
      Alike lenient erase contract (.node f (.nominal a)) (.node g (.nominal b))
  | erased {contract : Bool} {f g h : NodeFacts} {args : List TypeTree} {view : NominalTypeRef}
      (hv : view.readOnlyErasedView = true) (hlen : args.length = view.params.length)
      (hid : f.nominal = g.nominal) :
      Alike lenient true contract (.node h (.applied (.node f (.nominal view)) args))
        (.node g (.nominal view))
  | applied {erase contract : Bool} {f g : NodeFacts} {c d : TypeTree} {as bs : List TypeTree}
      (hcon : Alike lenient erase contract c d) (hlen : as.length = bs.length)
      (h : ∀ p ∈ as.zip bs, Alike lenient erase (contract || f.erasedView) p.1 p.2) :
      Alike lenient erase contract (.node f (.applied c as)) (.node g (.applied d bs))

namespace Unifier
variable {store : TypeStore}

/-- The goal succeeds, and the pairs it asks for are alike when read through `f` and `g`. -/
def Met (f g : TypeId → TypeTree) : UnifyGoal → Prop
  | .done => True
  | .descend tasks none => ∀ t ∈ tasks,
      Alike true t.readOnlyErasure t.definitionContract (f t.lhs) (g t.rhs)
  | _ => False

variable {f g : TypeId → TypeTree} {w : Unifier}

private theorem alike_zip {as bs : List TypeId}
    (h : ∀ t ∈ w.zipTasks as bs,
      Alike true t.readOnlyErasure t.definitionContract (f t.lhs) (g t.rhs)) :
    ∀ p ∈ (as.map f).zip (bs.map g),
      Alike true w.readOnlyErasure w.definitionContract p.1 p.2 := by
  intro p hp
  rw [List.zip_map] at hp
  obtain ⟨⟨a, b⟩, hab, rfl⟩ := List.mem_map.mp hp
  refine h (w.task a b) ?_
  unfold zipTasks
  rw [← List.map_uncurry_zip_eq_zipWith]
  exact List.mem_map.mpr ⟨(a, b), hab, rfl⟩

private theorem alike_refs {l r : Ty}
    (h : ∀ t ∈ w.zipTasks l.refs r.refs,
      Alike true t.readOnlyErasure t.definitionContract (f t.lhs) (g t.rhs)) :
    ∀ p ∈ (l.mapRefs f).refs.zip (r.mapRefs g).refs,
      Alike true w.readOnlyErasure w.definitionContract p.1 p.2 := by
  unfold Ty.mapRefs
  rw [Ty.refs_mapParts, Ty.refs_mapParts]
  exact alike_zip h

private theorem alike_option {a b : Option TypeId}
    (h : ∀ t ∈ w.optionTasks a b,
      Alike true t.readOnlyErasure t.definitionContract (f t.lhs) (g t.rhs)) :
    ∀ s ∈ a.map f, ∀ t ∈ b.map g, Alike true w.readOnlyErasure w.definitionContract s t := by
  intro s hs t ht
  obtain ⟨x, rfl, rfl⟩ := Option.map_eq_some_iff.mp hs
  obtain ⟨y, rfl, rfl⟩ := Option.map_eq_some_iff.mp ht
  exact h (w.task x y) List.mem_cons_self

private theorem mem_map_row {r s : EffectRowRef} (hfg : ∀ x ∈ r.refs, x ∈ s.refs → f x = g x)
    (hsub : ∀ e ∈ r.effects, e ∈ s.effects) {e : EffectRef TypeTree} (he : e ∈ (r.map f).effects) :
    e ∈ (s.map g).effects := by
  obtain ⟨e, her, rfl⟩ := List.mem_map.mp he
  refine List.mem_map.mpr ⟨e, hsub e her, ?_⟩
  simp only [EffectRef.map, EffectRef.mk.injEq, true_and]
  refine List.map_congr_left fun arg ha => ?_
  cases arg with
  | type ty =>
    have hr : ty ∈ r.refs := EffectRowRef.mem_refs.mpr ⟨e, her, ha⟩
    have hs : ty ∈ s.refs := EffectRowRef.mem_refs.mpr ⟨e, hsub e her, ha⟩
    simp [EffectArgRef.map, hfg ty hr hs]
  | path _ | string _ | int _ | wildcard => rfl

private theorem sameRow_map {r s : EffectRowRef} (hfg : ∀ x ∈ r.refs, x ∈ s.refs → f x = g x)
    (h : sameEffectRow (some r) (some s) = true) : SameRow (r.map f) (s.map g) := by
  simp only [sameEffectRow, Bool.and_eq_true, beq_iff_eq, List.all_eq_true,
    List.contains_iff_mem] at h
  obtain ⟨⟨htail, hrs⟩, hsr⟩ := h
  exact ⟨htail, fun e => ⟨mem_map_row hfg hrs,
    mem_map_row (fun x hs hr => (hfg x hr hs).symm) hsr⟩⟩

private theorem sameOptionRow_map {r s : Option EffectRowRef}
    (hfg : ∀ x ∈ optionRowRefs r, x ∈ optionRowRefs s → f x = g x) (h : sameEffectRow r s = true) :
    SameOptionRow (r.map (EffectRowRef.map f)) (s.map (EffectRowRef.map g)) := by
  cases r <;> cases s
  · trivial
  · cases h
  · cases h
  · exact sameRow_map hfg h

private theorem met_ite {p : Prop} [Decidable p] {goal : UnifyGoal} {a b : TypeId} {e : UnifyError}
    (h : Met f g (if p then goal else if a = b then .done else .fail e)) :
    p ∧ Met f g goal ∨ a = b := by
  split_ifs at h with hp hab
  · exact Or.inl ⟨hp, h⟩
  · exact Or.inr hab
  · exact h.elim

private theorem map_unit_eq {α β : Type} {f : α → Unit} {g : β → Unit} {as : List α} {bs : List β}
    (h : as.length = bs.length) : as.map f = bs.map g := by
  calc as.map f = List.replicate as.length () := List.map_eq_replicate_iff.mpr fun _ _ => rfl
    _ = List.replicate bs.length () := by rw [h]
    _ = bs.map g := (List.map_eq_replicate_iff.mpr fun _ _ => rfl).symm

variable {left right : List CheckedSpecBound}

theorem boundsAlign_iff :
    boundsAlign left right = true ↔
      List.Forall₂ (fun a b => a.spec = b.spec ∧ a.args.length = b.args.length) left right := by
  simp only [boundsAlign, Bool.and_eq_true, beq_iff_eq, List.all_eq_true, List.forall₂_iff_zip]
  simp

private theorem existential_shape (h : boundsAlign left right = true) :
    ((Ty.existential left).mapRefs f).shape = ((Ty.existential right).mapRefs g).shape := by
  simp only [Ty.mapRefs, Ty.shape, Ty.mapParts, Ty.existential.injEq, List.map_map]
  replace h := boundsAlign_iff.mp h
  induction h with
  | nil => rfl
  | cons hab _ ih =>
    rw [List.map_cons, List.map_cons, ih]
    simp only [Function.comp_apply, CheckedSpecBound.map, hab.1, List.map_map]
    rw [map_unit_eq hab.2]

theorem existential_tasks (h : boundsAlign left right = true) :
    ((left.zip right).flatMap fun (a, b) => w.zipTasks a.args b.args) =
      w.zipTasks (left.flatMap CheckedSpecBound.args) (right.flatMap CheckedSpecBound.args) := by
  replace h := boundsAlign_iff.mp h
  induction h with
  | nil => rfl
  | cons hab _ ih =>
    rw [List.zip_cons_cons, List.flatMap_cons, ih]
    exact (List.zipWith_append hab.2).symm

private theorem alike_fields {as bs : List FieldType} (hc : (w.fieldTasks bs as).2 = true)
    (h : ∀ t ∈ (w.fieldTasks bs as).1,
      Alike true t.readOnlyErasure t.definitionContract (f t.lhs) (g t.rhs)) :
    ∀ x ∈ as.map (FieldType.map f), ∃ y,
      (bs.map (FieldType.map g)).find? (·.name == x.name) = some y ∧
        Alike true w.readOnlyErasure w.definitionContract x.ty y.ty := by
  induction as with
  | nil => simp
  | cons a as ih =>
    unfold fieldTasks at hc h
    split at hc
    next => cases hc
    next other hfind =>
      rw [hfind] at h
      intro x hx
      rw [List.map_cons, List.mem_cons] at hx
      rcases hx with rfl | hx
      · refine ⟨other.map g, ?_, h _ List.mem_cons_self⟩
        rw [List.find?_map]
        exact congrArg (Option.map _) hfind
      · exact ih hc (fun t ht => h t (List.mem_cons_of_mem _ ht)) x hx

/-- Two nodes are alike when read through `f` and `g`. -/
def NodesAlike (store : TypeStore) (u : Unifier) (f g : TypeId → TypeTree) (lhs rhs : TypeId)
    (l r : Ty) : Prop :=
  Alike true u.readOnlyErasure u.definitionContract
    (.node (store.facts lhs l) (l.mapRefs f)) (.node (store.facts rhs r) (r.mapRefs g))

/-! One lemma for each arm that does more than pair components. -/

section
variable {u : Unifier} {lhs rhs : TypeId} {f g : TypeId → TypeTree}

private theorem record_alike {a b : RecordType} {error : UnifyError}
    (hlen : a.fields.length = b.fields.length)
    (ht : Met f g (.descend (u.fieldTasks b.fields a.fields).1
      (if (u.fieldTasks b.fields a.fields).2 then none else some error))) :
    NodesAlike store u f g lhs rhs (.record a) (.record b) := by
  have hc : (u.fieldTasks b.fields a.fields).2 = true := by
    by_contra hc
    simp [Met, hc] at ht
  simp only [hc, if_true] at ht
  choose! other hfind halike using alike_fields hc ht
  exact .record other (Or.inl rfl) (by simpa using hlen) hfind halike

private theorem function_alike {a b : FlowType} {error : UnifyError}
    (hfg : ∀ x ∈ (Ty.function a).children, x ∈ (Ty.function b).children → f x = g x)
    (hlen : a.input.length = b.input.length)
    (ht : Met f g (if u.definitionContract && !sameEffectRow a.effects b.effects then .fail error
      else .descend ({ u with readOnlyErasure := false }.zipTasks a.input b.input ++
        [{ u with readOnlyErasure := false }.task a.output b.output]) none)) :
    NodesAlike store u f g lhs rhs (.function a) (.function b) := by
  split_ifs at ht with hrow
  · exact ht.elim
  · refine .function (fun hc => ?_) (by simpa using hlen) ?_ ?_
    · refine sameOptionRow_map (fun x hl hr => hfg x ?_ ?_) (by simpa [hc] using hrow)
      · simp [Ty.children, Ty.constructorRefs, Ty.refs, hl]
      · simp [Ty.children, Ty.constructorRefs, Ty.refs, hr]
    · exact alike_zip fun t hm => ht t (List.mem_append_left _ hm)
    · exact ht _ (List.mem_append_right _ List.mem_cons_self)

private theorem handler_alike {a b : HandlerType}
    (hfg : ∀ x ∈ (Ty.handler a).children, x ∈ (Ty.handler b).children → f x = g x)
    (hrow : a.handled = b.handled)
    (ht : Met f g (.descend (u.optionTasks a.result b.result) none)) :
    NodesAlike store u f g lhs rhs (.handler a) (.handler b) := by
  refine .handler ?_ (Or.inl rfl) (alike_option ht)
  change a.handled.map f = b.handled.map g
  rw [hrow]
  refine EffectRowRef.map_congr fun x hx => hfg x ?_ ?_
  · simp [Ty.children, Ty.constructorRefs, Ty.refs, hrow, hx]
  · simp [Ty.children, Ty.constructorRefs, Ty.refs, hx]

private theorem task_alike {a b : TaskType}
    (hfg : ∀ x ∈ (Ty.task a).children, x ∈ (Ty.task b).children → f x = g x)
    (hrow : sameEffectRow (some a.effects) (some b.effects) = true)
    (ht : Met f g (.descend [u.task a.output b.output] none)) :
    NodesAlike store u f g lhs rhs (.task a) (.task b) := by
  refine .task (sameRow_map (fun x hl hr => hfg x ?_ ?_) hrow) (Or.inl rfl) (ht _ List.mem_cons_self)
  · exact List.mem_cons_of_mem _ hl
  · exact List.mem_cons_of_mem _ hr

private theorem continuation_alike {a b : ContinuationType}
    (hfg : ∀ x ∈ (Ty.continuation a).children, x ∈ (Ty.continuation b).children → f x = g x)
    (hrow : sameEffectRow a.residualEffects b.residualEffects = true)
    (ht : Met f g (.descend (u.task a.actionOutput b.actionOutput ::
      u.optionTasks a.handledAnswer b.handledAnswer) none)) :
    NodesAlike store u f g lhs rhs (.continuation a) (.continuation b) := by
  refine .continuation ?_ (Or.inl rfl) (ht _ List.mem_cons_self)
    (alike_option fun t hm => ht t (List.mem_cons_of_mem _ hm))
  refine sameOptionRow_map (fun x hl hr => hfg x ?_ ?_) hrow
  · simp [Ty.children, Ty.constructorRefs, Ty.refs, hl]
  · simp [Ty.children, Ty.constructorRefs, Ty.refs, hr]

private theorem named_alike {a b : NamedTypeRef} (hid : sameParameter store lhs rhs a b = true) :
    NodesAlike store u f g lhs rhs (.named a) (.named b) := by
  unfold sameParameter at hid
  split at hid
  next hl hr =>
    rw [beq_iff_eq] at hid
    exact .named (by simp [TypeStore.facts, hl, hr, hid]) (by simp [TypeStore.facts, hl])
      (Or.inl rfl)
  next hl hr =>
    rw [beq_iff_eq] at hid
    exact .named (by simp [TypeStore.facts, hl, hr]) (fun _ => hid) (Or.inl rfl)
  next => cases hid

private theorem nominal_alike {a b : NominalTypeRef} (hid : sameNominal store lhs rhs a b = true) :
    NodesAlike store u f g lhs rhs (.nominal a) (.nominal b) := by
  unfold sameNominal at hid
  split at hid
  next hl hr =>
    rw [beq_iff_eq] at hid
    exact .nominal (by simp [TypeStore.facts, hl, hr, hid]) (by simp [TypeStore.facts, hl])
      (Or.inl rfl)
  next hl hr =>
    rw [beq_iff_eq] at hid
    exact .nominal (by simp [TypeStore.facts, hl, hr]) (fun _ => hid) (Or.inl rfl)
  next => cases hid

private theorem erased_alike {c : TypeId} {args : List TypeId} {view : NominalTypeRef}
    (hcon : ∀ view, store.get c = some (.nominal view) →
      f c = .node (store.facts c (.nominal view)) (.nominal view))
    (hid : u.erasesTo store c args rhs view = true) :
    NodesAlike store u f g lhs rhs (.applied c args) (.nominal view) := by
  simp only [erasesTo, Bool.and_eq_true, beq_iff_eq] at hid
  obtain ⟨⟨⟨⟨he, hv⟩, hlen⟩, hnom⟩, hget⟩ := hid
  change Alike true _ _ (.node _ (.applied (f c) (args.map f))) _
  rw [he, hcon view hget]
  exact .erased hv (by simpa using hlen) hnom

private theorem applied_alike {ac bc : TypeId} {aa ba : List TypeId}
    (hlen : aa.length = ba.length)
    (ht : Met f g (.descend (u.task ac bc :: { u with
      definitionContract := u.definitionContract || isErasedView store ac }.zipTasks aa ba) none)) :
    NodesAlike store u f g lhs rhs (.applied ac aa) (.applied bc ba) := by
  refine .applied (ht _ List.mem_cons_self) (by simpa using hlen) ?_
  have hview : (store.facts lhs (.applied ac aa)).erasedView = isErasedView store ac := by
    simp [TypeStore.facts, Ty.constructorRefs]
  rw [hview]
  exact alike_zip fun t hm => ht t (List.mem_cons_of_mem _ hm)

end

variable {lhs rhs : TypeId}

/-- Where the arms for two nodes succeed, the nodes are alike, or are one node. -/
theorem nodeGoal_alike {u : Unifier} {l r : Ty} (hfg : ∀ x ∈ l.children, x ∈ r.children → f x = g x)
    (hcon : ∀ x ∈ l.constructorRefs, ∀ view, store.get x = some (.nominal view) →
      f x = .node (store.facts x (.nominal view)) (.nominal view))
    (h : Met f g (u.nodeGoal store lhs rhs l r)) :
    NodesAlike store u f g lhs rhs l r ∨ lhs = rhs := by
  have hother (h : Met f g (if lhs = rhs then .done else .fail (.mismatch lhs rhs))) :
      NodesAlike store u f g lhs rhs l r ∨ lhs = rhs := by
    split_ifs at h with hab
    · exact Or.inr hab
    · exact h.elim
  cases l with
  | existential left =>
    cases r with
    | existential right =>
      refine (met_ite h).imp (fun hm => ?_) id
      obtain ⟨hb, ht⟩ := hm
      exact .positional trivial (existential_shape hb) (alike_refs (existential_tasks hb ▸ ht))
    | _ => exact hother h
  | primitive a =>
    cases r with
    | primitive b =>
      refine (met_ite h).imp (fun hm => ?_) id
      obtain ⟨rfl, -⟩ := hm
      exact .positional trivial rfl fun p hp => by cases hp
    | integerLiteral _ => exact (met_ite h).imp (fun hm => .ofLiteral hm.1) id
    | _ => exact hother h
  | integerLiteral a =>
    cases r with
    | primitive b => exact (met_ite h).imp (fun hm => .literal hm.1) id
    | integerLiteral _ => exact Or.inl (.literals (Or.inl rfl))
    | _ => exact hother h
  | record a =>
    cases r with
    | record b => exact (met_ite h).imp (fun hm => record_alike hm.1 hm.2) id
    | _ => exact hother h
  | function a =>
    cases r with
    | function b => exact (met_ite h).imp (fun hm => function_alike hfg hm.1 hm.2) id
    | _ => exact hother h
  | handler a =>
    cases r with
    | handler b => exact (met_ite h).imp (fun hm => handler_alike hfg hm.1 hm.2) id
    | _ => exact hother h
  | task a =>
    cases r with
    | task b => exact (met_ite h).imp (fun hm => task_alike hfg hm.1 hm.2) id
    | _ => exact hother h
  | continuation a =>
    cases r with
    | continuation b => exact (met_ite h).imp (fun hm => continuation_alike hfg hm.1 hm.2) id
    | _ => exact hother h
  | named a =>
    cases r with
    | named b => exact (met_ite h).imp (fun hm => named_alike hm.1) id
    | _ => exact hother h
  | nominal a =>
    cases r with
    | nominal b => exact (met_ite h).imp (fun hm => nominal_alike hm.1) id
    | _ => exact hother h
  | applied ac aa =>
    cases r with
    | nominal view =>
      exact (met_ite h).imp (fun hm => erased_alike (hcon ac List.mem_cons_self) hm.1) id
    | applied bc ba => exact (met_ite h).imp (fun hm => applied_alike hm.1 hm.2) id
    | _ => exact hother h
  | schedulerHandle =>
    cases r with
    | schedulerHandle => exact Or.inl (.positional trivial rfl fun p hp => by cases hp)
    | _ => exact hother h
  | tuple a =>
    cases r with
    | tuple b =>
      refine (met_ite h).imp (fun hm => ?_) id
      obtain ⟨hlen, ht⟩ := hm
      refine .positional trivial (congrArg Ty.tuple ?_) (alike_refs ht)
      exact map_unit_eq (by simpa using hlen)
    | _ => exact hother h
  | trust wa a =>
    cases r with
    | trust wb b =>
      refine (met_ite h).imp (fun hm => ?_) id
      obtain ⟨rfl, ht⟩ := hm
      exact .positional trivial rfl (alike_refs ht)
    | _ => exact hother h
  | resourceHandle a =>
    cases r with
    | resourceHandle b =>
      cases a with
      | memoryRegion a =>
        cases b with
        | memoryRegion b => exact Or.inl (.positional trivial rfl (alike_refs h))
        | _ => exact hother h
      | externalTool a =>
        cases b with
        | externalTool b => exact Or.inl (.positional trivial rfl (alike_refs h))
        | _ => exact hother h
      | other an aa =>
        cases b with
        | other bn ba =>
          refine (met_ite h).imp (fun hm => ?_) id
          obtain ⟨⟨rfl, hlen⟩, ht⟩ := hm
          refine .positional trivial (congrArg (Ty.resourceHandle ∘ .other an) ?_) (alike_refs ht)
          exact map_unit_eq (by simpa using hlen)
        | _ => exact hother h
    | _ => cases a <;> exact hother h
  | _ =>
    cases r <;> first
      | exact hother h
      | exact Or.inl (.positional trivial rfl (alike_refs h))

/-- Every binding of `lookup` is one of `lookup'`. -/
def Grows (lookup lookup' : TypeVarId → Option TypeId) : Prop :=
  ∀ v ty, lookup v = some ty → lookup' v = some ty

private theorem Grows.binding {lookup lookup' : TypeVarId → Option TypeId}
    (h : Grows lookup lookup') {a b : TypeId} (hab : Binding store lookup a b) :
    Binding store lookup' a b := by
  obtain ⟨v, hv, hb⟩ := hab
  exact ⟨v, hv, h v b hb⟩

private theorem nodeGoal_var_right (u : Unifier) (lhs rhs : TypeId) (l : Ty) (v : TypeVarId) :
    u.nodeGoal store lhs rhs l (.var v) =
      if lhs = rhs then .done else .fail (.mismatch lhs rhs) := by
  cases l with
  | resourceHandle h => cases h <;> rfl
  | _ => rfl

variable {lookup : TypeVarId → Option TypeId}

/-- `nodeGoal_alike` for the trees of two ids. -/
private theorem alike_of_met {u : Unifier} {a b : TypeId}
    {l r : Ty} {s t : TypeTree} (hs : FullyApplied store lookup a s)
    (ht : FullyApplied store lookup b t) (ha : store.get a = some l) (hb : store.get b = some r)
    (h : ∀ f g, (∀ x ∈ l.children, FullyApplied store lookup x (f x)) →
      (∀ x ∈ r.children, FullyApplied store lookup x (g x)) →
        Met f g (u.nodeGoal store a b l r)) :
    Alike true u.readOnlyErasure u.definitionContract s t := by
  by_cases hab : a = b
  · subst hab
    rw [hs.unique ht]
    exact .refl t
  obtain ⟨f, hf, hsf⟩ := hs.parts ha
  obtain ⟨g, hg, htg⟩ := ht.parts hb
  have hmet := h f g hf hg
  rcases hsf with rfl | ⟨v, rfl⟩
  · rcases htg with rfl | ⟨v, rfl⟩
    · refine (nodeGoal_alike (fun x hl hr => (hf x hl).unique (hg x hr)) ?_ hmet).resolve_right hab
      intro x hx view hview
      obtain ⟨k, -, hk | ⟨v, hv⟩⟩ := (hf x (List.mem_append_left _ hx)).parts hview
      · exact hk
      · cases hv
    · rw [nodeGoal_var_right, if_neg hab] at hmet
      exact hmet.elim
  · change Met f g (if a = b then .done else .fail _) at hmet
    rw [if_neg hab] at hmet
    exact hmet.elim

variable {u u' : Unifier}

private theorem runTasks_ok {n : ℕ} {tasks : List UnifyTask}
    (h : runTasks (unify store n) u tasks = some (.ok (), u')) :
    Grows u.lookup u'.lookup ∧ ∀ t ∈ tasks, ∃ w w' : Unifier,
      unify store n (w.enter t) t.lhs t.rhs = some (.ok (), w') ∧
        w.patternParameters = u.patternParameters ∧ Grows w'.lookup u'.lookup := by
  induction tasks generalizing u with
  | nil =>
    cases h
    exact ⟨fun _ _ h => h, by simp⟩
  | cons t ts ih =>
    unfold runTasks at h
    split at h
    next => cases h
    next => cases h
    next w ht =>
      obtain ⟨hgrow, hrest⟩ := ih h
      refine ⟨fun v ty hv => hgrow v ty (unify_extends ht hv), fun t' ht' => ?_⟩
      rcases List.mem_cons.mp ht' with rfl | ht'
      · exact ⟨u, w, ht, rfl, hgrow⟩
      · obtain ⟨x, x', hx, hp, hg⟩ := hrest t' ht'
        exact ⟨x, x', hx, hp.trans (unify_sameSetup ht).patternParameters, hg⟩

/-- Without pattern parameters a successful call makes its two types alike, under the bindings it
leaves and under every later extension of them. -/
theorem unify_sound {n : ℕ}
    (hp : u.patternParameters = none) (h : unify store n u lhs rhs = some (.ok (), u'))
    (hgrow : Grows u'.lookup lookup) {s t : TypeTree}
    (hs : FullyApplied store lookup lhs s) (ht : FullyApplied store lookup rhs t) :
    Alike true u.readOnlyErasure u.definitionContract s t := by
  induction n generalizing u u' lhs rhs s t with
  | zero => cases h
  | succ n ih =>
    have hold : ∀ {a b}, ReflTransGen (Binding store u.lookup) a b →
        ReflTransGen (Binding store lookup) a b :=
      fun hab => ReflTransGen.mono
        (fun _ _ => Grows.binding fun v ty hv => hgrow v ty (unify_extends h hv)) _ _ hab
    have hgoal := goal_step store u lhs rhs
    cases unify_step h with
    | done hg =>
      rw [hg] at hgoal
      cases hgoal with
      | done hl hr heq =>
        replace hs := hs.of_bindings (hold hl.1)
        replace ht := ht.of_bindings (hold hr.1)
        rcases heq with rfl | ⟨l, r, ha, hb, hnode⟩
        · rw [hs.unique ht]
          exact .refl t
        · exact alike_of_met hs ht ha hb fun _ _ _ _ => hnode ▸ trivial
    | remember hg =>
      rw [hg] at hgoal
      cases hgoal with
      | remember hsome => simp [hp] at hsome
    | exact hg _ =>
      rw [hg] at hgoal
      cases hgoal with
      | exact hsome => simp [hp] at hsome
    | @bind v ty _ _ hg hr =>
      rw [hg] at hgoal
      cases hgoal with
      | @bind _ _ a b hl hr' hv =>
        replace hs := hs.of_bindings (hold hl.1)
        replace ht := ht.of_bindings (hold hr'.1)
        have hbound : lookup v = some ty :=
          hgrow v ty (by rw [lookup_of_bind hr]; simp [bound])
        rcases hv with ⟨hv, rfl⟩ | ⟨hv, rfl⟩
        · rw [(hs.of_binding ⟨v, hv, hbound⟩).unique ht]
          exact .refl t
        · rw [hs.unique (ht.of_binding ⟨v, hv, hbound⟩)]
          exact .refl t
    | descend hg hr hok =>
      rw [hg] at hgoal
      cases hgoal with
      | @descend a b l r tasks _ hl hr' ha hb hnode =>
        obtain ⟨rfl, rfl⟩ := hok rfl
        replace hs := hs.of_bindings (hold hl.1)
        replace ht := ht.of_bindings (hold hr'.1)
        refine alike_of_met hs ht ha hb fun f g hf hg' => ?_
        have hc := nodeGoal_component store u a b l r
        rw [hnode] at hc ⊢
        intro task htask
        obtain ⟨w, w', hcall, hwp, hgrow'⟩ := (runTasks_ok hr).2 task htask
        exact ih (u := w.enter task) (hwp.trans hp) hcall (fun v ty hv => hgrow v ty (hgrow' v ty hv))
          (hf _ (hc task htask).1) (hg' _ (hc task htask).2)

/-- Plain mode: what a successful call says about the two types with the resulting bindings fully
applied, and about the bindings it started from. The trees exist when the result is acyclic. -/
theorem unify_ok_alike (hs : store.WellFormed) {n : ℕ}
    (hp : u.patternParameters = none) (he : u.readOnlyErasure = false)
    (hc : u.definitionContract = false) (h : unify store n u lhs rhs = some (.ok (), u')) :
    (∀ s t, FullyApplied store u'.lookup lhs s → FullyApplied store u'.lookup rhs t →
      Alike true false false s t) ∧
    (AcyclicBindings store u'.lookup → ∀ ty, ∃ s, FullyApplied store u'.lookup ty s) ∧
    ∀ v ty, u.lookup v = some ty → u'.lookup v = some ty := by
  refine ⟨fun s t hl hr => ?_, fun ha => ?_, fun v ty => unify_extends h⟩
  · have := unify_sound hp h (fun _ _ hv => hv) hl hr
    rwa [he, hc] at this
  · exact exists_fullyApplied ((acyclic_edge_iff hs).mpr ha)

/-- Two continuations, one without an answer, and lists of a variable and of the unit type. -/
def answerStore : TypeStore := { TypeStore.new with
  types := [.primitive .unit, .continuation ⟨0, none, none⟩, .continuation ⟨0, some 0, none⟩,
    .var 0, .list 3, .list 0] }

private theorem answerStore_wellFormed : answerStore.WellFormed :=
  TypeStore.wellFormed_of_lt (by decide)

theorem unify_ok_alike_lists :
    ∃ u', unify answerStore 3 new 4 5 = some (.ok (), u') ∧
      ∀ s t, FullyApplied answerStore u'.lookup 4 s → FullyApplied answerStore u'.lookup 5 t →
        Alike true false false s t :=
  ⟨_, rfl, (unify_ok_alike answerStore_wellFormed (n := 3) (u := new) rfl rfl rfl rfl).1⟩

/-- An absent answer of a continuation is matched as well, so the trees differ by more than the
four relaxations. -/
theorem unify_ok_answer_absent :
    answerStore.WellFormed ∧ unify answerStore 3 new 1 2 = some (.ok (), new) ∧
    ∃ s t, FullyApplied answerStore new.lookup 1 s ∧ FullyApplied answerStore new.lookup 2 t ∧
      ¬ Alike false false false s t := by
  have hres : ∀ a, Resolved answerStore new.lookup a := fun a b ⟨v, _, hv⟩ => by cases hv
  have hunit : FullyApplied answerStore new.lookup 0 (.node ⟨none, none, false⟩ (.primitive .unit)) :=
    .node .missing (hres 0) rfl fun b hb => by cases hb
  let f : TypeId → TypeTree := fun _ => .node ⟨none, none, false⟩ (.primitive .unit)
  have hkids : ∀ b, b = 0 → FullyApplied answerStore new.lookup b (f b) := fun b hb => hb ▸ hunit
  refine ⟨answerStore_wellFormed, rfl, _, _, .node f (hres 1) rfl fun b hb => hkids b ?_,
    .node f (hres 2) rfl fun b hb => hkids b ?_, fun h => ?_⟩
  · simpa [Ty.children, Ty.constructorRefs, Ty.refs, optionRowRefs] using hb
  · simpa [Ty.children, Ty.constructorRefs, Ty.refs, optionRowRefs] using hb
  · cases h with
    | positional hp _ _ => exact hp
    | continuation _ hx _ _ =>
      rcases hx with hx | ⟨-, hx⟩ <;> cases hx

end Unifier
end EtasFrontend.Types
