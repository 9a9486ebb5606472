import EtasFrontend.Types.SubstitutionExisting

/-! The record type behind declared types: representations are followed down to a record, and its
fields are specialized on the way back. -/
namespace EtasFrontend.Types
open Lib Relation

/-- One error type of the source: a substitution fails, or an application has no parameters. -/
inductive RepresentationError where
  | substitution (error : TypeSubstitutionError)
  | invalidApplication (constructor : TypeId)

/-- The representation of a declared type, and the arguments by the names of its parameters. -/
def nominalRepresentationParts (store : TypeStore) (ty : TypeId) :
    Option (TypeId × Map String TypeId) :=
  match store.get ty with
  | some (.nominal nominal) =>
    nominal.representation.map fun representation => (representation, ∅)
  | some (.applied constructor args) =>
    match store.get constructor with
    | some (.nominal nominal) => nominal.representation.map fun representation =>
        (representation, .ofList (nominal.params.zip args))
    | _ => none
  | _ => none

/-- `CanonicalTypeParameterIdentity::new` for an index of 32 bits. -/
def canonicalTypeParameter (portable : GenericOwner → Bool) (owner : DefinitionKey) (index : ℕ) :
    Option CanonicalTypeParameterIdentity :=
  if index < 2 ^ 32 ∧ (owner.kind = .type ∨ owner.kind = .spec ∨ owner.kind = .agent) ∧
      portable (.declaration owner) = true then
    some ⟨.declaration owner, index⟩
  else none

def canonicalParametersForApplication (portable : GenericOwner → Bool) (store : TypeStore)
    (constructor : TypeId) (arguments : List TypeId) :
    Except RepresentationError (Map CanonicalTypeParameterIdentity TypeId) :=
  match store.nominalIdentity constructor with
  | none => .ok ∅
  | some owner =>
    let identities := arguments.zipIdx.mapM fun argument =>
      (canonicalTypeParameter portable owner argument.2).map fun identity => (identity, argument.1)
    match identities with
    | none => .error (.invalidApplication constructor)
    | some identities => .ok (.ofList identities)

def applicationParameters (portable : GenericOwner → Bool) (store : TypeStore) (ty : TypeId) :
    Except RepresentationError (Map CanonicalTypeParameterIdentity TypeId) :=
  match store.get ty with
  | some (.applied constructor args) =>
    canonicalParametersForApplication portable store constructor args
  | _ => .ok ∅

/-- The inputs of the engine that specializes the fields. -/
def applicationInput (substitutions : Map String TypeId)
    (canonical : Map CanonicalTypeParameterIdentity TypeId) : SubstitutionInput :=
  ⟨some substitutions, none, some canonical, none, none, none, none⟩

theorem applicationInput_plain (substitutions : Map String TypeId)
    (canonical : Map CanonicalTypeParameterIdentity TypeId) :
    (applicationInput substitutions canonical).Plain :=
  ⟨rfl, rfl, rfl⟩

/-- One engine for each field, up to the first that fails. `none` where the turns are used up. -/
def specializeFields (store : TypeStore) (n : ℕ) (σ : SubstitutionInput) :
    List FieldType → Option (Except RepresentationError (List FieldType))
  | [] => some (.ok [])
  | field :: fields =>
    match substitute .existing n σ field.ty (.fresh store) with
    | none => none
    | some (.error error, _) => some (.error (.substitution error))
    | some (.ok ty, _) =>
      (specializeFields store n σ fields).map fun result =>
        result.map fun fields => { field with ty } :: fields

/-- `none` where the turns are used up. -/
def recordFieldsWithAppliedParams (portable : GenericOwner → Bool) (store : TypeStore) :
    ℕ → TypeId → Option (Except RepresentationError (Option RecordType))
  | 0, _ => none
  | n + 1, ty =>
    match store.get ty with
    | none => some (.error (.substitution (.missingType ty)))
    | some (.record record) => some (.ok (some record))
    | some (.nominal _) | some (.applied _ _) =>
      match nominalRepresentationParts store ty with
      | none => some (.ok none)
      | some (representation, substitutions) =>
        match recordFieldsWithAppliedParams portable store n representation with
        | none => none
        | some (.error error) => some (.error error)
        | some (.ok none) => some (.ok none)
        | some (.ok (some record)) =>
          match applicationParameters portable store ty with
          | .error error => some (.error error)
          | .ok canonical =>
            (specializeFields store n (applicationInput substitutions canonical)
              record.fields).map fun result => result.map fun fields => some ⟨fields⟩
    | some _ => some (.ok none)

/-- A declared or applied type has the other as its representation. -/
def Represents (store : TypeStore) (ty representation : TypeId) : Prop :=
  ∃ substitutions, nominalRepresentationParts store ty = some (representation, substitutions)

variable {portable : GenericOwner → Bool} {store : TypeStore} {ty representation : TypeId}

theorem Represents.get (h : Represents store ty representation) :
    (∃ nominal, store.get ty = some (.nominal nominal)) ∨
      ∃ constructor args, store.get ty = some (.applied constructor args) := by
  obtain ⟨substitutions, h⟩ := h
  unfold nominalRepresentationParts at h
  split at h
  · exact Or.inl ⟨_, ‹_›⟩
  · exact Or.inr ⟨_, _, ‹_›⟩
  · cases h

theorem Represents.lt (h : Represents store ty representation) : ty < store.len := by
  rcases h.get with ⟨nominal, hget⟩ | ⟨constructor, args, hget⟩ <;>
    exact TypeStore.lt_len_of_get hget

variable {n : ℕ}

theorem specializeFields_returns (hn : store.existingBound ≤ n) {σ : SubstitutionInput}
    (hσ : σ.Plain) (fields : List FieldType) : specializeFields store n σ fields ≠ none := by
  have hbound : walkBound σ store + 2 ≤ n := (walkBound_le σ store).trans hn
  induction fields with
  | nil => exact Option.some_ne_none _
  | cons field fields ih =>
    obtain ⟨result, after, hcall, -, -⟩ :=
      substitute_existing hσ (Resting.fresh store σ) field.ty hbound
    rw [specializeFields, hcall]
    cases result with
    | error error => exact Option.some_ne_none _
    | ok ty => simpa using ih

/-- What a call does at a type with a representation. -/
theorem recordFields_representation {substitutions : Map String TypeId}
    (h : nominalRepresentationParts store ty = some (representation, substitutions)) :
    recordFieldsWithAppliedParams portable store (n + 1) ty =
      match recordFieldsWithAppliedParams portable store n representation with
      | none => none
      | some (.error error) => some (.error error)
      | some (.ok none) => some (.ok none)
      | some (.ok (some record)) =>
        match applicationParameters portable store ty with
        | .error error => some (.error error)
        | .ok canonical =>
          (specializeFields store n (applicationInput substitutions canonical)
            record.fields).map fun result => result.map fun fields => some ⟨fields⟩ := by
  have hrep : Represents store ty representation := ⟨substitutions, h⟩
  rw [recordFieldsWithAppliedParams]
  rcases hrep.get with ⟨nominal, hget⟩ | ⟨constructor, args, hget⟩
  · simp only [hget, h]
  · simp only [hget, h]

variable {ty : TypeId}

theorem recordFields_of_parts_none (h : nominalRepresentationParts store ty = none) :
    recordFieldsWithAppliedParams portable store (n + 1) ty ≠ none := by
  rw [recordFieldsWithAppliedParams, h]
  split <;> exact Option.some_ne_none _

theorem recordFields_returns_step (hrep : Represents store ty representation)
    (h : recordFieldsWithAppliedParams portable store (n + 1) ty ≠ none) :
    recordFieldsWithAppliedParams portable store n representation ≠ none := by
  obtain ⟨substitutions, hparts⟩ := hrep
  intro hnone
  rw [recordFields_representation hparts, hnone] at h
  exact h rfl

theorem recordFields_returns_of_step (hn : store.existingBound ≤ n)
    (h : ∀ representation, Represents store ty representation →
      recordFieldsWithAppliedParams portable store n representation ≠ none) :
    recordFieldsWithAppliedParams portable store (n + 1) ty ≠ none := by
  cases hparts : nominalRepresentationParts store ty with
  | none => exact recordFields_of_parts_none hparts
  | some parts =>
    obtain ⟨representation, substitutions⟩ := parts
    have hrec := h representation ⟨substitutions, hparts⟩
    rw [recordFields_representation hparts]
    split
    · exact absurd ‹_› hrec
    · exact Option.some_ne_none _
    · exact Option.some_ne_none _
    · split
      · exact Option.some_ne_none _
      · simpa using specializeFields_returns hn (applicationInput_plain _ _) _

theorem acc_of_recordFields_returns (h : recordFieldsWithAppliedParams portable store n ty ≠ none) :
    Acc (fun b a => Represents store a b) ty := by
  induction n generalizing ty with
  | zero => exact absurd rfl h
  | succ n ih => exact ⟨_, fun b hb => ih (recordFields_returns_step hb h)⟩

theorem recordFields_returns_of_acc
    (h : Acc (fun b a => Represents store a b) ty) : ∃ enough, ∀ n ≥ enough,
      recordFieldsWithAppliedParams portable store n ty ≠ none := by
  induction h with
  | intro ty _ ih =>
    by_cases hrep : ∃ representation, Represents store ty representation
    · obtain ⟨representation, hrep⟩ := hrep
      obtain ⟨enough, henough⟩ := ih representation hrep
      refine ⟨max enough store.existingBound + 1, fun n hn => ?_⟩
      obtain ⟨n, rfl⟩ : ∃ m, n = m + 1 := ⟨n - 1, by omega⟩
      refine recordFields_returns_of_step (by omega) fun other hother => ?_
      have hsame : other = representation := by
        obtain ⟨substitutions, hparts⟩ := hrep
        obtain ⟨substitutions', hparts'⟩ := hother
        rw [hparts] at hparts'
        cases hparts'
        rfl
      rw [hsame]
      exact henough n (by omega)
    · refine ⟨store.existingBound + 1, fun n hn => ?_⟩
      obtain ⟨n, rfl⟩ : ∃ m, n = m + 1 := ⟨n - 1, by omega⟩
      exact recordFields_returns_of_step (by omega) fun other hother => absurd ⟨other, hother⟩ hrep

/-- A call returns exactly when the representations of its type do not run into a cycle. -/
theorem recordFields_returns_iff (portable : GenericOwner → Bool) (store : TypeStore)
    (ty : TypeId) :
    (∃ enough, ∀ n ≥ enough, recordFieldsWithAppliedParams portable store n ty ≠ none) ↔
      ¬ MeetsCycle (Represents store) ty := by
  constructor
  · intro ⟨enough, h⟩
    exact not_meetsCycle_of_acc (acc_of_recordFields_returns (h enough le_rfl))
  · intro h
    have hacc : Acc (fun b a => Represents store a b) ty :=
      acc_of_not_meetsCycle (Finset.finite_toSet (Finset.range store.len))
        (fun a b hab => by simpa using hab.lt) h
    exact recordFields_returns_of_acc hacc

/-- Two declarations, each with the other as its representation. -/
private def mutualInterner : TypeInterner :=
  let declared := (TypeInterner.new.intern (.nominal ⟨"A", [], none, false⟩)).2
  (declared.intern (.nominal ⟨"B", [], none, false⟩)).2

theorem recordFields_mutual : ∃ first second : TypeInterner,
    mutualInterner.defineNominal 0 (some 1) = some first ∧
    first.defineNominal 1 (some 0) = some second ∧
    InternerReachable (fun _ => true) (fun _ _ _ => True) second ∧
    ∀ n, recordFieldsWithAppliedParams (fun _ => true) second.store n 0 = none := by
  obtain ⟨first, hfirst⟩ : ∃ first, mutualInterner.defineNominal 0 (some 1) = some first :=
    ⟨_, rfl⟩
  obtain ⟨second, hsecond⟩ : ∃ second, first.defineNominal 1 (some 0) = some second := by
    cases hfirst
    exact ⟨_, rfl⟩
  have hreach : InternerReachable (fun _ => true) (fun _ _ _ => True) mutualInterner :=
    (ReflTransGen.single (.intern _ _)).tail (.intern _ _)
  refine ⟨first, second, hfirst, hsecond,
    (hreach.tail (.define trivial hfirst)).tail (.define trivial hsecond), fun n => ?_⟩
  have hparts : nominalRepresentationParts second.store 0 = some (1, ∅) ∧
      nominalRepresentationParts second.store 1 = some (0, ∅) := by
    cases hfirst
    cases hsecond
    exact ⟨rfl, rfl⟩
  have hboth : recordFieldsWithAppliedParams (fun _ => true) second.store n 0 = none ∧
      recordFieldsWithAppliedParams (fun _ => true) second.store n 1 = none := by
    induction n with
    | zero => exact ⟨rfl, rfl⟩
    | succ n ih =>
      rw [recordFields_representation hparts.1, recordFields_representation hparts.2, ih.1, ih.2]
      exact ⟨rfl, rfl⟩
  exact hboth.1

end EtasFrontend.Types
