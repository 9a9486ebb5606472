import EtasFrontend.Types.LookupIndex
import EtasFrontend.Types.SubstitutionSimulation

/-! Substitution that only reads, beside substitution that interns and finds everything there. -/
namespace EtasFrontend.Types
open Lib Relation

namespace SubstitutionTarget

/-- `Existing` with a lookup index of the store. -/
def indexed (hash : Ty → UInt64) (index : TypeLookupIndex) : SubstitutionTarget TypeStore where
  inputStore store := store
  place store specialized :=
    match index.get hash store specialized with
    | some id => (.ok id, store)
    | none => (.error (.unmaterializedType specialized), store)

/-- `Materialize`, with a note of the nodes that were interned. -/
def recording : SubstitutionTarget (TypeInterner × List Ty) where
  inputStore t := t.1.store
  place t specialized :=
    (.ok (t.1.intern specialized).1, ((t.1.intern specialized).2, specialized :: t.2))

end SubstitutionTarget

/-- The nodes that a call in `Materialize` interns. -/
def internedNodes (n : ℕ) (σ : SubstitutionInput) (a : TypeId) (interner : TypeInterner) : List Ty :=
  ((substitute .recording n σ a (.fresh (interner, []))).map fun p => p.2.target.2).getD []

variable {portable : GenericOwner → Bool} {interner : TypeInterner} {n : ℕ} {σ : SubstitutionInput}
  {a r : TypeId}

/-- The universe is only read, and a node with components is found where the interner has it. -/
structure LooksUp (interner : TypeInterner) (target : SubstitutionTarget TypeStore) : Prop where
  inputStore : ∀ store, target.inputStore store = store
  found : ∀ ty id, ty.isLeaf = false → interner.find ty = some id →
    target.place interner.store ty = (.ok id, interner.store)
  missing : ∀ ty, ty.isLeaf = false → interner.find ty = none →
    ∃ error, target.place interner.store ty = (.error error, interner.store)

section
variable (hi : InternerInv portable interner) (hc : CompoundsIndexed interner)
include hi hc

theorem find_compound {p : TypeId → Bool}
    (hp : ∀ id, interner.store.isCanonical id = false → p id = true) {ty : Ty}
    (hleaf : ty.isLeaf = false) :
    (interner.store.allTypes.zipIdx.find? fun e => p e.2 && e.1 == ty) =
      (interner.find ty).map fun id => (ty, id) := by
  cases hfind : interner.store.allTypes.zipIdx.find? fun e => p e.2 && e.1 == ty with
  | some e =>
    obtain ⟨node, id⟩ := e
    have hget : interner.store.get id = some node := by
      rw [TypeStore.get_eq]
      exact List.mem_zipIdx_iff_getElem?.mp (List.mem_of_find?_eq_some hfind)
    have hsame : node = ty := by
      have hprop := List.find?_some hfind
      simp only [Bool.and_eq_true, beq_iff_eq] at hprop
      exact hprop.2
    subst hsame
    rw [hc id node hget hleaf]
    rfl
  | none =>
    cases hf : interner.find ty with
    | none => rfl
    | some id =>
      obtain ⟨hget, hcan⟩ := hi.sound ty id hf
      have hmem : (ty, id) ∈ interner.store.allTypes.zipIdx := by
        rw [List.mem_zipIdx_iff_getElem?, ← TypeStore.get_eq]
        exact hget
      have hnot := List.find?_eq_none.mp hfind (ty, id) hmem
      simp [hp id hcan] at hnot

theorem existing_looksUp : LooksUp interner .existing := by
  have hplace : ∀ ty : Ty, ty.isLeaf = false →
      (interner.store.allTypes.zipIdx.find? fun e => e.1 == ty) =
        (interner.find ty).map fun id => (ty, id) := by
    intro ty hleaf
    have hfind := find_compound hi hc (p := fun _ => true) (fun _ _ => rfl) hleaf
    simpa using hfind
  refine ⟨fun _ => rfl, fun ty id hleaf hf => ?_, fun ty hleaf hf => ?_⟩
  · simp only [SubstitutionTarget.existing, hplace ty hleaf, hf]
    rfl
  · refine ⟨.unmaterializedType ty, ?_⟩
    simp only [SubstitutionTarget.existing, hplace ty hleaf, hf]
    rfl

theorem indexed_looksUp (hash : Ty → UInt64) :
    LooksUp interner (.indexed hash (.new hash interner.store)) := by
  have hplace : ∀ ty : Ty, ty.isLeaf = false →
      (TypeLookupIndex.new hash interner.store).get hash interner.store ty = interner.find ty := by
    intro ty hleaf
    have hfind := find_compound hi hc (p := fun id => !interner.store.isCanonical id)
      (fun id hid => by rw [hid]; rfl) hleaf
    rw [TypeLookupIndex.get_new, hfind]
    cases interner.find ty <;> rfl
  refine ⟨fun _ => rfl, fun ty id hleaf hf => ?_, fun ty hleaf hf => ?_⟩
  · simp only [SubstitutionTarget.indexed, hplace ty hleaf, hf]
  · refine ⟨.unmaterializedType ty, ?_⟩
    simp only [SubstitutionTarget.indexed, hplace ty hleaf, hf]

end

/-! The universes side by side. -/

theorem materialize_recording :
    Simulates .materialize .recording (fun _ => True) fun (interner : TypeInterner) t =>
      t.1 = interner where
  store t t' h := by
    change t'.1.store = t.store
    rw [h]
  back _ _ _ _ _ _ := trivial
  place t t' ty r t₁ h _ hplace _ := by
    obtain ⟨hr, ht⟩ := Prod.mk.inj hplace
    refine ⟨((t'.1.intern ty).2, ty :: t'.2), ?_, ?_⟩
    · rw [← hr, ← h]
      rfl
    · dsimp only
      rw [h, ht]

theorem len_intern_eq (store : TypeStore) (ty : Ty) : (store.intern ty).2.len = store.len + 1 := by
  have hlen : (store.intern ty).2.len = store.baseLen + (store.types ++ [canonicalType ty]).length :=
    rfl
  rw [hlen, List.length_append, List.length_singleton, TypeStore.len]
  omega

section
variable {target : SubstitutionTarget TypeStore} (hlook : LooksUp interner target)
include hlook

theorem recording_reads :
    Simulates .recording target
      (fun t => t.1.store.len ≤ interner.store.len ∧ ∀ ty ∈ t.2, canonicalType ty = ty)
      fun t store => t.1 = interner ∧ store = interner.store where
  store t t' h := by
    rw [hlook.inputStore, h.2, ← h.1]
    rfl
  back t ty r t₁ hplace hgood := by
    obtain ⟨-, rfl⟩ := Prod.mk.inj hplace
    obtain ⟨hlen, hall⟩ := hgood
    refine ⟨?_, fun node hnode => hall node (List.mem_cons_of_mem _ hnode)⟩
    rcases t.1.intern_cases ty with ⟨id, -, hr⟩ | ⟨-, hr⟩
    · rw [hr] at hlen
      exact hlen
    · rw [hr] at hlen
      have hadd := len_intern_eq t.1.store (canonicalType ty)
      dsimp only at hlen
      omega
  place t t' ty r t₁ h hleaf hplace hgood := by
    obtain ⟨hr, rfl⟩ := Prod.mk.inj hplace
    obtain ⟨hlen, hall⟩ := hgood
    obtain ⟨rfl, rfl⟩ := h
    have hcanonical : canonicalType ty = ty := hall ty List.mem_cons_self
    rcases t.1.intern_cases ty with ⟨id, hf, hintern⟩ | ⟨-, hintern⟩
    · rw [hintern] at hr ⊢
      cases hr
      rw [hcanonical] at hf
      exact ⟨t.1.store, hlook.found ty id hleaf hf, rfl, rfl⟩
    · rw [hintern] at hlen
      have hadd := len_intern_eq t.1.store (canonicalType ty)
      dsimp only at hlen
      omega

theorem reads_recording (hi : InternerInv portable interner) :
    Simulates target .recording (fun _ => True) fun store t =>
      store = interner.store ∧ t.1 = interner ∧ ∀ ty ∈ t.2, canonicalType ty = ty where
  store t t' h := by
    rw [hlook.inputStore, h.1, ← h.2.1]
    rfl
  back _ _ _ _ _ _ := trivial
  place t t' ty r t₁ h hleaf hplace _ := by
    obtain ⟨rfl, rfl, hall⟩ := h
    cases hf : t'.1.find ty with
    | none =>
      obtain ⟨error, herror⟩ := hlook.missing ty hleaf hf
      rw [herror] at hplace
      cases hplace
    | some id =>
      rw [hlook.found ty id hleaf hf] at hplace
      cases hplace
      have hcanonical := hi.store.canonical r ty (hi.sound ty r hf).1
      have hintern : t'.1.intern ty = (r, t'.1) := by
        rcases t'.1.intern_cases ty with ⟨id', hf', hr⟩ | ⟨hf', -⟩
        · rw [hcanonical, hf] at hf'
          cases hf'
          exact hr
        · rw [hcanonical, hf] at hf'
          cases hf'
      refine ⟨(t'.1, ty :: t'.2), ?_, rfl, rfl, fun node hnode => ?_⟩
      · simp only [SubstitutionTarget.recording, hintern]
      · rcases List.mem_cons.mp hnode with rfl | hnode
        · exact hcanonical
        · exact hall node hnode

/-- A call that only reads succeeds with the type of a call that interns and adds nothing exactly
when no node was changed on its way into the store. -/
theorem reads_iff (hi : InternerInv portable interner) {after : Engine TypeInterner}
    (hm : substitute .materialize n σ a (.fresh interner) = some (.ok r, after))
    (hlen : after.target.store.len = interner.store.len) :
    (∃ after', substitute target n σ a (.fresh interner.store) = some (.ok r, after')) ↔
      ∀ ty ∈ internedNodes n σ a interner, canonicalType ty = ty := by
  have hfresh : Lockstep (fun (interner : TypeInterner) (t : TypeInterner × List Ty) =>
      t.1 = interner) (.fresh interner) (.fresh (interner, [])) := ⟨rfl, rfl, rfl, rfl⟩
  obtain ⟨noted, hnoted, hlock⟩ :=
    (substitute_carries materialize_recording n σ a).forth _ _ r after hfresh hm trivial
  have hnodes : internedNodes n σ a interner = noted.target.2 := by
    unfold internedNodes
    rw [hnoted]
    rfl
  rw [hnodes]
  constructor
  · rintro ⟨after', hread⟩
    obtain ⟨noted', hnoted', hlock'⟩ :=
      (substitute_carries (reads_recording hlook hi) n σ a).forth _ (.fresh (interner, [])) r after'
        ⟨⟨rfl, rfl, fun ty h => by cases h⟩, rfl, rfl, rfl⟩ hread trivial
    cases hnoted.symm.trans hnoted'
    exact hlock'.target.2.2
  · intro hall
    have hlen' : noted.target.1.store.len ≤ interner.store.len := by
      rw [hlock.target, hlen]
    obtain ⟨after', hread, -⟩ :=
      (substitute_carries (recording_reads hlook) n σ a).forth _ (.fresh interner.store) r noted
        ⟨⟨rfl, rfl⟩, rfl, rfl, rfl⟩ hnoted ⟨hlen', hall⟩
    exact ⟨after', hread⟩

end

/-- Where `Materialize` adds no type, `Existing` returns the same id, with the lookup index and
without it, exactly when interning changes none of the nodes. -/
theorem existing_iff {allowed : TypeInterner → TypeId → Option TypeId → Prop}
    (hreach : InternerReachable portable allowed interner) (hash : Ty → UInt64)
    {after : Engine TypeInterner}
    (hm : substitute .materialize n σ a (.fresh interner) = some (.ok r, after))
    (hlen : after.target.store.len = interner.store.len) :
    ((∃ after', substitute .existing n σ a (.fresh interner.store) = some (.ok r, after')) ↔
      ∀ ty ∈ internedNodes n σ a interner, canonicalType ty = ty) ∧
    ((∃ after', substitute (.indexed hash (.new hash interner.store)) n σ a
        (.fresh interner.store) = some (.ok r, after')) ↔
      ∀ ty ∈ internedNodes n σ a interner, canonicalType ty = ty) := by
  have hi := InternerInv.of_reachable hreach
  have hc := CompoundsIndexed.of_reachable hreach
  exact ⟨reads_iff (existing_looksUp hi hc) hi hm hlen,
    reads_iff (indexed_looksUp hi hc hash) hi hm hlen⟩

/-- Two parameters, two types, an existential with a bound for each of them, and two existentials
over the types. -/
private def boundInterner : TypeInterner :=
  let spec := CheckedSpecRef.source 0
  [.primitive .bool, .primitive .string, .named ⟨"T", none⟩, .named ⟨"U", none⟩,
    .existential [⟨spec, [2]⟩, ⟨spec, [3]⟩], .existential [⟨spec, [0]⟩, ⟨spec, [1]⟩]].foldl
    (fun interner ty => (interner.intern ty).2) .new

private theorem boundInterner_reachable :
    InternerReachable (fun _ => true) (fun _ _ _ => True) boundInterner :=
  ((((((ReflTransGen.refl).tail (.intern _ _)).tail (.intern _ _)).tail (.intern _ _)).tail
    (.intern _ _)).tail (.intern _ _)).tail (.intern _ _)

/-- With `T` and `U` replaced in their order the bounds keep theirs. -/
theorem existing_iff_ordered :
    (∃ after, substitute .existing 12 (.materializing (.ofList [("T", 0), ("U", 1)]) none) 4
      (.fresh boundInterner.store) = some (.ok 5, after)) ∧
    ∃ after, substitute (.indexed (fun _ => 0) (.new (fun _ => 0) boundInterner.store)) 12
      (.materializing (.ofList [("T", 0), ("U", 1)]) none) 4 (.fresh boundInterner.store) =
        some (.ok 5, after) := by
  obtain ⟨hexisting, hindexed⟩ := existing_iff boundInterner_reachable (fun _ => 0) (n := 12)
    (σ := .materializing (.ofList [("T", 0), ("U", 1)]) none) (a := 4) (r := 5) rfl rfl
  exact ⟨hexisting.mpr (by decide), hindexed.mpr (by decide)⟩

/-- With `T` and `U` replaced the other way round the bounds change places: interning finds the
existential, reading does not. -/
theorem existing_unordered : ∃ enough : ℕ, ∀ n ≥ enough,
    (∃ after, substitute .materialize n (.materializing (.ofList [("T", 1), ("U", 0)]) none) 4
      (.fresh boundInterner) = some (.ok 5, after) ∧
        after.target.store.len = boundInterner.store.len) ∧
    ∃ after node, substitute .existing n
      (.materializing (.ofList [("T", 1), ("U", 0)]) none) 4 (.fresh boundInterner.store) =
        some (.error (.unmaterializedType node), after) := by
  refine ⟨12, fun n hn => ?_⟩
  obtain ⟨m, rfl⟩ := Nat.exists_eq_add_of_le' hn
  exact ⟨⟨_, rfl, rfl⟩, _, _, rfl⟩

end EtasFrontend.Types
