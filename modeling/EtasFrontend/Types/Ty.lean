import Mathlib.Data.List.Basic

/-! The type language of the checker. A `Ty` is one node of the type graph: it refers
to its components by `TypeId`, so the graph lives in the store and not in the term. -/
namespace EtasFrontend.Types

abbrev TypeId := ℕ
abbrev TypeVarId := ℕ
/-- A constructor reference is the id of the declaration, kept apart in the source. -/
abbrev TypeConstructorId := ℕ
abbrev RefinementId := ℕ
abbrev SymbolId := ℕ
/-- The 32 bytes of a fingerprint, read as one number. -/
abbrev CodeFingerprint := ℕ

inductive PrimitiveType where
  | bool | i8 | i16 | i32 | i64 | i128 | iSize | u8 | u16 | u32 | u64 | u128 | uSize
  | f32 | f64 | char | string | bytes | unit | never
  deriving DecidableEq

inductive DefinitionKind where
  | type | spec | agent | flow | tool | effect | enumVariant | value | protocol | requirement
  deriving DecidableEq

/-- Identity of a declaration in a package. -/
structure DefinitionKey where
  package : String
  modulePath : List String
  path : List String
  kind : DefinitionKind
  deriving DecidableEq

inductive CheckedSpecRef where
  | source (symbol : SymbolId)
  | std (path : List String)
  | external (package : ℕ) (path : List String)
  | canonical (key : DefinitionKey)
  deriving DecidableEq

structure CheckedSpecBound (ρ : Type := TypeId) where
  spec : CheckedSpecRef
  args : List ρ
  deriving DecidableEq

inductive EffectArgRef (ρ : Type := TypeId) where
  | type (ty : ρ)
  | path (segments : List String)
  | string (value : String)
  | int (value : String)
  | wildcard
  deriving DecidableEq

structure EffectRef (ρ : Type := TypeId) where
  name : String
  args : List (EffectArgRef ρ)
  deriving DecidableEq

structure EffectRowRef (ρ : Type := TypeId) where
  effects : List (EffectRef ρ)
  tail : Option String
  deriving DecidableEq

structure FieldType (ρ : Type := TypeId) where
  name : String
  ty : ρ
  deriving DecidableEq

structure RecordType (ρ : Type := TypeId) where
  fields : List (FieldType ρ)
  deriving DecidableEq

structure FlowType (ρ : Type := TypeId) where
  input : List ρ
  output : ρ
  effects : Option (EffectRowRef ρ)
  deriving DecidableEq

inductive HandlerProducedEffects (ρ : Type := TypeId) where
  | infer
  | explicit (row : EffectRowRef ρ)
  deriving DecidableEq

structure HandlerType (ρ : Type := TypeId) where
  handled : EffectRowRef ρ
  produced : HandlerProducedEffects ρ
  result : Option ρ
  deriving DecidableEq

structure TaskType (ρ : Type := TypeId) where
  output : ρ
  effects : EffectRowRef ρ
  deriving DecidableEq

structure ContinuationType (ρ : Type := TypeId) where
  actionOutput : ρ
  handledAnswer : Option ρ
  residualEffects : Option (EffectRowRef ρ)
  deriving DecidableEq

structure MemoryPlaceType where
  segments : List String
  deriving DecidableEq

inductive ResourceHandleType (ρ : Type := TypeId) where
  | memoryRegion (schema : ρ)
  | externalTool (signature : ρ)
  | other (name : String) (args : List ρ)
  deriving DecidableEq

inductive TrustWrapper where
  | trusted | untrusted | secret | publicData | sanitized
  deriving DecidableEq

structure NamedTypeRef where
  name : String
  sourceParameter : Option SymbolId
  deriving DecidableEq

structure NominalTypeRef where
  name : String
  params : List String
  representation : Option TypeId
  readOnlyErasedView : Bool
  deriving DecidableEq

structure EnumTypeRef where
  name : String
  deriving DecidableEq

/-- One node of the type graph. -/
inductive Ty (ρ : Type := TypeId) where
  | existential (bounds : List (CheckedSpecBound ρ))
  | primitive (primitive : PrimitiveType)
  | integerLiteral (text : String)
  | var (var : TypeVarId)
  | array (inner : ρ)
  | list (inner : ρ)
  | map (key value : ρ)
  | set (inner : ρ)
  | range (index : ρ)
  | slice (inner : ρ)
  | option (inner : ρ)
  | result (ok err : ρ)
  | record (record : RecordType ρ)
  | tuple (elements : List ρ)
  | enum (enum : EnumTypeRef)
  | function (flow : FlowType ρ)
  | handler (handler : HandlerType ρ)
  | task (task : TaskType ρ)
  | schedulerHandle
  | continuation (continuation : ContinuationType ρ)
  | named (name : NamedTypeRef)
  | nominal (nominal : NominalTypeRef)
  | applied (constructor : ρ) (args : List ρ)
  | refined (base : ρ) (predicate : RefinementId)
  | trust (wrapper : TrustWrapper) (inner : ρ)
  | schema (inner : ρ)
  | prompt
  | promptPart
  | message (inner : ρ)
  | memorySelection (inner : ρ)
  | store (key value : ρ)
  | memoryPlace (place : MemoryPlaceType)
  | memoryRegion (inner : ρ)
  | resourceHandle (handle : ResourceHandleType ρ)
  deriving DecidableEq

/-! Type references held by a node. -/

variable {ρ : Type}

def EffectArgRef.refs : EffectArgRef ρ → List ρ
  | .type ty => [ty]
  | _ => []

def EffectRef.refs (effect : EffectRef ρ) : List ρ :=
  effect.args.flatMap EffectArgRef.refs

def EffectRowRef.refs (row : EffectRowRef ρ) : List ρ :=
  row.effects.flatMap EffectRef.refs

def optionRowRefs (row : Option (EffectRowRef ρ)) : List ρ :=
  (row.map EffectRowRef.refs).getD []

def HandlerProducedEffects.refs : HandlerProducedEffects ρ → List ρ
  | .infer => []
  | .explicit row => row.refs

/-- Every type a node mentions, except the declaration of an application. Rows count:
their arguments are types. A nominal's representation is not a component of the node. -/
def Ty.refs : Ty ρ → List ρ
  | .existential bounds => bounds.flatMap CheckedSpecBound.args
  | .array inner | .list inner | .set inner | .range inner | .slice inner | .option inner
  | .refined inner _ | .trust _ inner | .schema inner | .message inner
  | .memorySelection inner | .memoryRegion inner => [inner]
  | .map key value | .store key value | .result key value => [key, value]
  | .record r => r.fields.map FieldType.ty
  | .tuple elements => elements
  | .function flow => flow.input ++ flow.output :: optionRowRefs flow.effects
  | .handler h => h.handled.refs ++ h.produced.refs ++ h.result.toList
  | .task t => t.output :: t.effects.refs
  | .continuation c => c.actionOutput :: c.handledAnswer.toList ++ optionRowRefs c.residualEffects
  | .applied _ args => args
  | .resourceHandle (.memoryRegion ty) | .resourceHandle (.externalTool ty) => [ty]
  | .resourceHandle (.other _ args) => args
  | .primitive _ | .integerLiteral _ | .var _ | .enum _ | .named _ | .nominal _
  | .schedulerHandle | .prompt | .promptPart | .memoryPlace _ => []

/-- The declaration an application refers to. -/
def Ty.constructorRefs : Ty ρ → List ρ
  | .applied constructor _ => [constructor]
  | _ => []

/-- The successors of a node in the type graph. -/
def Ty.children (ty : Ty ρ) : List ρ := ty.constructorRefs ++ ty.refs

/-! Replacing the references of a node. -/

variable {τ : Type}

def CheckedSpecBound.map (f : ρ → τ) (bound : CheckedSpecBound ρ) : CheckedSpecBound τ :=
  ⟨bound.spec, bound.args.map f⟩

def EffectArgRef.map (f : ρ → τ) : EffectArgRef ρ → EffectArgRef τ
  | .type ty => .type (f ty)
  | .path segments => .path segments
  | .string value => .string value
  | .int value => .int value
  | .wildcard => .wildcard

def EffectRef.map (f : ρ → τ) (effect : EffectRef ρ) : EffectRef τ :=
  ⟨effect.name, effect.args.map (EffectArgRef.map f)⟩

def EffectRowRef.map (f : ρ → τ) (row : EffectRowRef ρ) : EffectRowRef τ :=
  ⟨row.effects.map (EffectRef.map f), row.tail⟩

def HandlerProducedEffects.map (f : ρ → τ) : HandlerProducedEffects ρ → HandlerProducedEffects τ
  | .infer => .infer
  | .explicit row => .explicit (row.map f)

def FieldType.map (f : ρ → τ) (field : FieldType ρ) : FieldType τ := ⟨field.name, f field.ty⟩

/-- `f` on every reference, `con` on the declaration of an application. -/
def Ty.mapParts (con f : ρ → τ) : Ty ρ → Ty τ
  | .existential bounds => .existential (bounds.map (CheckedSpecBound.map f))
  | .primitive p => .primitive p
  | .integerLiteral text => .integerLiteral text
  | .var v => .var v
  | .array inner => .array (f inner)
  | .list inner => .list (f inner)
  | .map key value => .map (f key) (f value)
  | .set inner => .set (f inner)
  | .range index => .range (f index)
  | .slice inner => .slice (f inner)
  | .option inner => .option (f inner)
  | .result ok err => .result (f ok) (f err)
  | .record r => .record ⟨r.fields.map (FieldType.map f)⟩
  | .tuple elements => .tuple (elements.map f)
  | .enum e => .enum e
  | .function flow =>
    .function ⟨flow.input.map f, f flow.output, flow.effects.map (EffectRowRef.map f)⟩
  | .handler h => .handler ⟨h.handled.map f, h.produced.map f, h.result.map f⟩
  | .task t => .task ⟨f t.output, t.effects.map f⟩
  | .schedulerHandle => .schedulerHandle
  | .continuation c => .continuation
    ⟨f c.actionOutput, c.handledAnswer.map f, c.residualEffects.map (EffectRowRef.map f)⟩
  | .named n => .named n
  | .nominal n => .nominal n
  | .applied c args => .applied (con c) (args.map f)
  | .refined base predicate => .refined (f base) predicate
  | .trust wrapper inner => .trust wrapper (f inner)
  | .schema inner => .schema (f inner)
  | .prompt => .prompt
  | .promptPart => .promptPart
  | .message inner => .message (f inner)
  | .memorySelection inner => .memorySelection (f inner)
  | .store key value => .store (f key) (f value)
  | .memoryPlace place => .memoryPlace place
  | .memoryRegion inner => .memoryRegion (f inner)
  | .resourceHandle (.memoryRegion ty) => .resourceHandle (.memoryRegion (f ty))
  | .resourceHandle (.externalTool ty) => .resourceHandle (.externalTool (f ty))
  | .resourceHandle (.other name args) => .resourceHandle (.other name (args.map f))

def Ty.mapRefs (f : ρ → τ) (ty : Ty ρ) : Ty τ := ty.mapParts f f

@[simp] theorem EffectRowRef.refs_map (f : ρ → τ) (row : EffectRowRef ρ) :
    (row.map f).refs = row.refs.map f := by
  simp only [refs, map, List.flatMap_map, List.map_flatMap]
  refine List.flatMap_congr fun effect _ => ?_
  simp only [EffectRef.refs, EffectRef.map, List.flatMap_map, List.map_flatMap]
  exact List.flatMap_congr fun arg _ => by cases arg <;> rfl

theorem optionRowRefs_map (f : ρ → τ) (row : Option (EffectRowRef ρ)) :
    optionRowRefs (row.map (EffectRowRef.map f)) = (optionRowRefs row).map f := by
  cases row <;> simp [optionRowRefs]

theorem Ty.refs_mapParts (con f : ρ → τ) (ty : Ty ρ) :
    (ty.mapParts con f).refs = ty.refs.map f := by
  cases ty with
  | existential bounds =>
    simp [mapParts, refs, List.flatMap_map, List.map_flatMap, CheckedSpecBound.map]
  | record r => simp [mapParts, refs, FieldType.map, Function.comp_def]
  | function flow => simp [mapParts, refs, optionRowRefs_map]
  | handler h =>
    cases hp : h.produced <;>
      simp [mapParts, refs, hp, HandlerProducedEffects.map, HandlerProducedEffects.refs] <;>
      cases h.result <;> rfl
  | task t => simp [mapParts, refs]
  | continuation c =>
    cases hc : c.handledAnswer <;> simp [mapParts, refs, hc, optionRowRefs_map]
  | resourceHandle r => cases r <;> rfl
  | _ => rfl

theorem EffectRowRef.map_congr {f g : ρ → τ} {row : EffectRowRef ρ}
    (h : ∀ b ∈ row.refs, f b = g b) : row.map f = row.map g := by
  simp only [refs, EffectRef.refs, List.mem_flatMap] at h
  simp only [map, EffectRowRef.mk.injEq, and_true]
  refine List.map_congr_left fun effect he => ?_
  simp only [EffectRef.map, EffectRef.mk.injEq, true_and]
  refine List.map_congr_left fun arg ha => ?_
  cases arg with
  | type ty => exact congrArg _ (h ty ⟨effect, he, _, ha, List.mem_singleton_self ty⟩)
  | path _ | string _ | int _ | wildcard => rfl

theorem Ty.mapParts_congr {con con' f g : ρ → τ} {ty : Ty ρ}
    (hc : ∀ b ∈ ty.constructorRefs, con b = con' b) (h : ∀ b ∈ ty.refs, f b = g b) :
    ty.mapParts con f = ty.mapParts con' g := by
  have hrow {row : Option (EffectRowRef ρ)} (h : ∀ b ∈ optionRowRefs row, f b = g b) :
      row.map (EffectRowRef.map f) = row.map (EffectRowRef.map g) := by
    cases row with
    | none => rfl
    | some row => exact congrArg some (EffectRowRef.map_congr h)
  have hopt {o : Option ρ} (h : ∀ b ∈ o.toList, f b = g b) : o.map f = o.map g := by
    cases o with
    | none => rfl
    | some b => exact congrArg some (h b List.mem_cons_self)
  cases ty with
  | existential bounds =>
    simp only [mapParts, Ty.existential.injEq]
    refine List.map_congr_left fun bound hb => ?_
    simp only [CheckedSpecBound.map, CheckedSpecBound.mk.injEq, true_and]
    exact List.map_congr_left fun a ha => h a (List.mem_flatMap.mpr ⟨bound, hb, ha⟩)
  | record r =>
    simp only [mapParts, Ty.record.injEq, RecordType.mk.injEq]
    refine List.map_congr_left fun field hf => ?_
    simp [FieldType.map, h field.ty (List.mem_map_of_mem hf)]
  | function flow =>
    simp only [refs, List.mem_append, List.mem_cons] at h
    simp only [mapParts, Ty.function.injEq, FlowType.mk.injEq]
    exact ⟨List.map_congr_left fun b hb => h b (Or.inl hb), h _ (Or.inr (Or.inl rfl)),
      hrow fun b hb => h b (Or.inr (Or.inr hb))⟩
  | handler hd =>
    simp only [refs, List.mem_append] at h
    simp only [mapParts, Ty.handler.injEq, HandlerType.mk.injEq]
    refine ⟨EffectRowRef.map_congr fun b hb => h b (Or.inl (Or.inl hb)), ?_,
      hopt fun b hb => h b (Or.inr hb)⟩
    cases hp : hd.produced with
    | infer => rfl
    | explicit row =>
      refine congrArg _ (EffectRowRef.map_congr fun b hb => h b (Or.inl (Or.inr ?_)))
      rw [hp]
      exact hb
  | task t =>
    simp only [refs, List.mem_cons] at h
    simp only [mapParts, Ty.task.injEq, TaskType.mk.injEq]
    exact ⟨h _ (Or.inl rfl), EffectRowRef.map_congr fun b hb => h b (Or.inr hb)⟩
  | continuation c =>
    simp only [refs, List.mem_append, List.mem_cons] at h
    simp only [mapParts, Ty.continuation.injEq, ContinuationType.mk.injEq]
    exact ⟨h _ (Or.inl (Or.inl rfl)), hopt fun b hb => h b (Or.inl (Or.inr hb)),
      hrow fun b hb => h b (Or.inr hb)⟩
  | applied c args =>
    simp only [mapParts, Ty.applied.injEq]
    exact ⟨hc c List.mem_cons_self, List.map_congr_left h⟩
  | resourceHandle r =>
    cases r with
    | memoryRegion ty | externalTool ty => simp [mapParts, h ty List.mem_cons_self]
    | other name args => simpa [mapParts, refs] using h
  | tuple elements => exact congrArg _ (List.map_congr_left h)
  | _ => simp_all [mapParts, refs]

theorem Ty.mapRefs_congr {f g : ρ → τ} {ty : Ty ρ} (h : ∀ b ∈ ty.children, f b = g b) :
    ty.mapRefs f = ty.mapRefs g :=
  mapParts_congr (fun b hb => h b (List.mem_append_left _ hb))
    fun b hb => h b (List.mem_append_right _ hb)

end EtasFrontend.Types
