import EtasFrontend.Effects.Summary
import EtasFrontend.Lib.Utf8
import Mathlib.Data.Finset.Sort
import Mathlib.SetTheory.Cardinal.Order

/-! The variables of open rows. A row keeps a hash of the name of its variable, and names are found
again by that hash. -/
namespace EtasFrontend.Effects
open Lib EtasFrontend.Types

/-- A step of the hash. -/
def mixByte (hash : UInt32) (byte : UInt8) : UInt32 := (hash ^^^ byte.toUInt32) * 0x01000193

def effectVarIdFromName (name : String) : EffectVarId :=
  ((Utf8.bytes name.toList).foldl mixByte 0x811c9dc5).toNat

/-! What turns a variable into a name or a row again. -/

def actionName (registry : EffectRegistry) (action : ActionRef) : Except String String := do
  let descriptor ← ((registry.actionSignature action).elim
    (.error "solved row has no action descriptor") .ok : Except String EffectActionSig)
  let owner ← ((registry.tagName action.tag).elim
    (.error "solved action has no owner descriptor") .ok : Except String String)
  .ok (owner ++ "." ++ descriptor.name)

def checkedEffect (registry : EffectRegistry) : Effect → Except String EffectRef
  | .tag tag => (registry.tagName tag).elim (.error "solved row has no tag descriptor") fun name =>
    .ok ⟨name, []⟩
  | .applied tag args =>
    (registry.tagName tag).elim (.error "solved row has no tag descriptor") fun name =>
      .ok ⟨name, args.map .type⟩
  | .error error =>
    (registry.tagName errorTag).elim (.error "solved row has no Error descriptor") fun name =>
      .ok ⟨name, [.type error]⟩
  | .action action => (actionName registry action).map fun name => ⟨name, []⟩
  | .appliedAction action => (actionName registry action.action).map fun name => ⟨name, action.args⟩
  | .var _ => .error "solved generic row contains a non-tail effect variable"

/-- The one lexical parameter with the id. -/
def lexicalBinder (lexicalParameters : List String) (id : EffectVarId) : Except String String :=
  match lexicalParameters.filter fun name => effectVarIdFromName name = id with
  | [name] => .ok name
  | _ => .error "solved generic row has no unique checked lexical binder"

def checkedTypeEffectRow [LinearOrder Effect] (row : EffectRow) (registry : EffectRegistry)
    (lexicalParameters : List String) : Except String EffectRowRef := do
  let tail ← row.openVar.mapM (lexicalBinder lexicalParameters)
  let effects ← (row.effects.sort (· ≤ ·)).mapM (checkedEffect registry)
  .ok ⟨effects, tail⟩

/-- What the bindings of a substitution can fail with. -/
inductive SummarySubstitutionError where
  | unboundRow (id : EffectVarId)
  | ambiguousRow (id : EffectVarId)
  | resourceLimit

/-- The number of steps that are left, and the row of each variable. -/
structure RowBindings where
  remaining : ℕ
  byVariable : Map EffectVarId EffectRow

def RowBindings.add (bindings : RowBindings) (entry : String × EffectRow) :
    Except SummarySubstitutionError RowBindings :=
  match bindings.remaining with
  | 0 => .error .resourceLimit
  | remaining + 1 =>
    let id := effectVarIdFromName entry.1
    if (bindings.byVariable.get id).isSome then .error (.ambiguousRow id)
    else
      match entry.2.openVar with
      | some openVar => .error (.unboundRow openVar)
      | none => .ok ⟨remaining, bindings.byVariable.insert id entry.2⟩

/-- The bindings that `EffectSummarySubstitution::apply` starts with. -/
def bindRows (maxNodes : ℕ) (rows : List (String × EffectRow)) :
    Except SummarySubstitutionError RowBindings :=
  rows.foldlM RowBindings.add ⟨maxNodes, ∅⟩

def RowBindings.row (bindings : RowBindings) (openVar : EffectVarId) :
    Except SummarySubstitutionError EffectRow :=
  (bindings.byVariable.get openVar).elim (.error (.unboundRow openVar)) .ok

theorem mul_prime_injective : Function.Injective fun hash : UInt32 => hash * 0x01000193 := by
  intro a b h
  have hinv : a * 0x01000193 * 0x359c449b = b * 0x01000193 * 0x359c449b :=
    congrArg (· * 0x359c449b) h
  have hone : (0x01000193 : UInt32) * 0x359c449b = 1 := by decide
  rw [UInt32.mul_assoc, UInt32.mul_assoc, hone, UInt32.mul_one, UInt32.mul_one] at hinv
  exact hinv

theorem mixByte_left_injective (byte : UInt8) : Function.Injective (mixByte · byte) := by
  intro a b h
  have hxor : a ^^^ byte.toUInt32 = b ^^^ byte.toUInt32 := mul_prime_injective h
  exact UInt32.xor_left_inj _ |>.mp hxor

theorem mixByte_right_injective (hash : UInt32) : Function.Injective (mixByte hash) := by
  intro a b h
  have hxor : hash ^^^ a.toUInt32 = hash ^^^ b.toUInt32 := mul_prime_injective h
  have hbyte : a.toUInt32 = b.toUInt32 := UInt32.xor_right_inj _ |>.mp hxor
  exact UInt8.toUInt32_inj.mp hbyte

theorem foldl_mixByte_injective (rest : List UInt8) : Function.Injective (rest.foldl mixByte) := by
  induction rest with
  | nil => exact Function.injective_id
  | cons byte rest ih => exact ih.comp (mixByte_left_injective byte)

theorem effectVarId_ne_of_byte {name other : String} {before after : List UInt8} {a b : UInt8}
    (hname : Utf8.bytes name.toList = before ++ a :: after)
    (hother : Utf8.bytes other.toList = before ++ b :: after) (hne : a ≠ b) :
    effectVarIdFromName name ≠ effectVarIdFromName other := by
  intro h
  have hhash := UInt32.toNat_inj.mp h
  rw [hname, hother, List.foldl_append, List.foldl_append, List.foldl_cons, List.foldl_cons] at hhash
  exact hne (mixByte_right_injective _ (foldl_mixByte_injective after hhash))

/-- The ids of the bound names are distinct, and each has the row of its name. -/
structure RowBindings.Holds (bindings : RowBindings) (rows : List (String × EffectRow)) :
    Prop where
  distinct : (rows.map fun entry => effectVarIdFromName entry.1).Nodup
  get : ∀ id, bindings.byVariable.get id =
    (rows.find? fun entry => effectVarIdFromName entry.1 = id).map Prod.snd

variable {rows : List (String × EffectRow)}

theorem RowBindings.Holds.add {bindings after : RowBindings} {entry : String × EffectRow}
    (h : bindings.Holds rows) (hadd : bindings.add entry = .ok after) :
    after.Holds (rows ++ [entry]) := by
  unfold RowBindings.add at hadd
  split at hadd
  · cases hadd
  · dsimp only at hadd
    split_ifs at hadd with hbound
    split at hadd
    · cases hadd
    · cases hadd
      have hnone : rows.find? (fun other =>
          effectVarIdFromName other.1 = effectVarIdFromName entry.1) = none := by
        rw [h.get, Option.isSome_map, Option.not_isSome_iff_eq_none] at hbound
        exact hbound
      constructor
      · rw [List.map_append, List.nodup_append]
        refine ⟨h.distinct, List.nodup_singleton _, ?_⟩
        rintro id hid id' hid' rfl
        obtain ⟨other, hother, rfl⟩ := List.mem_map.mp hid
        have hsame := List.find?_eq_none.mp hnone other hother
        exact hsame (decide_eq_true (List.mem_singleton.mp hid'))
      · intro id
        rw [Map.get_insert, List.find?_append, h.get]
        by_cases hid : id = effectVarIdFromName entry.1
        · subst hid
          rw [if_pos rfl, hnone]
          simp
        · rw [if_neg hid]
          simp [Ne.symm hid]

theorem bindRows_holds {maxNodes : ℕ} {bindings : RowBindings}
    (h : bindRows maxNodes rows = .ok bindings) : bindings.Holds rows := by
  have hfold : ∀ (rest before : List (String × EffectRow)) (start : RowBindings),
      start.Holds before → rest.foldlM RowBindings.add start = .ok bindings →
        bindings.Holds (before ++ rest) := by
    intro rest
    induction rest with
    | nil =>
      intro before start hstart hrun
      cases hrun
      rwa [List.append_nil]
    | cons entry rest ih =>
      intro before start hstart hrun
      rw [List.foldlM_cons] at hrun
      cases hadd : start.add entry with
      | error e =>
        rw [hadd] at hrun
        cases hrun
      | ok after =>
        rw [hadd] at hrun
        have hafter := ih (before ++ [entry]) after (hstart.add hadd) hrun
        rwa [List.append_assoc] at hafter
  exact hfold rows [] ⟨maxNodes, ∅⟩ ⟨List.nodup_nil, fun _ => rfl⟩ h

theorem RowBindings.Holds.row {bindings : RowBindings} (h : bindings.Holds rows)
    {entry : String × EffectRow} (hentry : entry ∈ rows) :
    bindings.row (effectVarIdFromName entry.1) = .ok entry.2 := by
  have hfind : rows.find? (fun other =>
      effectVarIdFromName other.1 = effectVarIdFromName entry.1) = some entry := by
    cases hfound : rows.find? (fun other =>
        effectVarIdFromName other.1 = effectVarIdFromName entry.1) with
    | none =>
      have hall := List.find?_eq_none.mp hfound entry hentry
      exact absurd (decide_eq_true rfl) hall
    | some other =>
      have hid := List.find?_some hfound
      have hmem := List.mem_of_find?_eq_some hfound
      have hsame := List.inj_on_of_nodup_map h.distinct hmem hentry (of_decide_eq_true hid)
      rw [hsame]
  rw [RowBindings.row, h.get, hfind]
  rfl

theorem lexicalBinder_ok {lexicalParameters : List String} {id : EffectVarId} {name : String}
    (h : lexicalBinder lexicalParameters id = .ok name) :
    lexicalParameters.filter (fun other => effectVarIdFromName other = id) = [name] := by
  unfold lexicalBinder at h
  split at h
  · next heq =>
    cases h
    exact heq
  · cases h

theorem checkedTypeEffectRow_tail [LinearOrder Effect] {row : EffectRow}
    {registry : EffectRegistry} {lexicalParameters : List String} {checked : EffectRowRef}
    (h : checkedTypeEffectRow row registry lexicalParameters = .ok checked) {id : EffectVarId}
    (hid : row.openVar = some id) :
    ∃ name, checked.tail = some name ∧
      lexicalParameters.filter (fun other => effectVarIdFromName other = id) = [name] := by
  unfold checkedTypeEffectRow at h
  rw [hid] at h
  cases hbinder : lexicalBinder lexicalParameters id with
  | error message =>
    simp only [Option.mapM_some, hbinder] at h
    cases h
  | ok name =>
    simp only [Option.mapM_some, hbinder] at h
    cases heffects : (row.effects.sort (· ≤ ·)).mapM (checkedEffect registry) with
    | error message =>
      rw [heffects] at h
      cases h
    | ok effects =>
      rw [heffects] at h
      cases h
      exact ⟨name, rfl, lexicalBinder_ok hbinder⟩

theorem openVar_unionAssign (row other : EffectRow) :
    (row.unionAssign other).1.openVar = row.openVar.or other.openVar := by
  unfold EffectRow.unionAssign
  cases row.openVar with
  | none => cases other.openVar <;> rfl
  | some id => rfl

theorem openVar_of_rowLessEqual {row other : EffectRow} (h : rowLessEqual row other = true) :
    row.openVar = none ∨ row.openVar = other.openVar := by
  unfold rowLessEqual at h
  rw [Bool.and_eq_true] at h
  have htail := h.2
  cases hrow : row.openVar with
  | none => exact .inl rfl
  | some id =>
    rw [hrow] at htail
    cases hother : other.openVar with
    | none =>
      rw [hother] at htail
      cases htail
    | some id' =>
      rw [hother] at htail
      exact .inr (congrArg some (beq_iff_eq.mp htail))

/-- The hash tells names apart that differ in one byte. Where names are bound to rows or found for
a tail, all ids that are alike are refused, and a join or a comparison makes no variable of its
own. -/
theorem effectVarId_guarded [LinearOrder Effect] :
    (∀ (name other : String) (before after : List UInt8) (a b : UInt8),
      Utf8.bytes name.toList = before ++ a :: after →
        Utf8.bytes other.toList = before ++ b :: after → a ≠ b →
          effectVarIdFromName name ≠ effectVarIdFromName other) ∧
    (∀ maxNodes rows bindings, bindRows maxNodes rows = .ok bindings →
      (rows.map fun entry => effectVarIdFromName entry.1).Nodup ∧
        ∀ entry ∈ rows, bindings.row (effectVarIdFromName entry.1) = .ok entry.2) ∧
    (∀ row registry lexicalParameters checked,
      checkedTypeEffectRow row registry lexicalParameters = .ok checked →
        ∀ id, row.openVar = some id → ∃ name, checked.tail = some name ∧
          lexicalParameters.filter (fun other => effectVarIdFromName other = id) = [name]) ∧
    (∀ row other : EffectRow, (row.unionAssign other).1.openVar = row.openVar.or other.openVar) ∧
    ∀ row other : EffectRow, rowLessEqual row other = true →
      row.openVar = none ∨ row.openVar = other.openVar := by
  refine ⟨?_, ?_, ?_, openVar_unionAssign, ?_⟩
  · intro name other before after a b hname hother hne
    exact effectVarId_ne_of_byte hname hother hne
  · intro maxNodes rows bindings h
    have hholds := bindRows_holds h
    exact ⟨hholds.distinct, fun entry hentry => hholds.row hentry⟩
  · intro row registry lexicalParameters checked h id hid
    exact checkedTypeEffectRow_tail h hid
  · intro row other h
    exact openVar_of_rowLessEqual h

theorem effectVarId_guarded_two : ∃ _ : LinearOrder Effect,
    (∃ bindings, bindRows 16 [("r", ⟨{.tag 1}, none⟩), ("s", ⟨{.tag 2}, none⟩)] = .ok bindings ∧
      bindings.row (effectVarIdFromName "s") = .ok ⟨{.tag 2}, none⟩) ∧
    ∀ registry, ∃ checked, checkedTypeEffectRow ⟨∅, some (effectVarIdFromName "s")⟩ registry
        ["r", "s"] = .ok checked ∧ ∃ name, checked.tail = some name ∧
      ["r", "s"].filter (fun other => effectVarIdFromName other = effectVarIdFromName "s") =
        [name] := by
  obtain ⟨order, -⟩ := exists_wellFoundedLT Effect
  refine ⟨order, ?_⟩
  obtain ⟨-, hbind, hchecked, -, -⟩ := effectVarId_guarded
  have hrows : ∃ bindings, bindRows 16 [("r", ⟨{.tag 1}, none⟩), ("s", ⟨{.tag 2}, none⟩)] =
      .ok bindings := ⟨_, rfl⟩
  obtain ⟨bindings, hrows⟩ := hrows
  have hrow := (hbind _ _ _ hrows).2 ("s", ⟨{.tag 2}, none⟩) (by simp)
  refine ⟨⟨bindings, hrows, hrow⟩, fun registry => ?_⟩
  have hrun : checkedTypeEffectRow ⟨∅, some (effectVarIdFromName "s")⟩ registry ["r", "s"] =
      .ok ⟨[], some "s"⟩ := by
    have hbinder : lexicalBinder ["r", "s"] (effectVarIdFromName "s") = .ok "s" := rfl
    simp [checkedTypeEffectRow, hbinder]
    rfl
  exact ⟨_, hrun, hchecked _ _ _ _ hrun _ rfl⟩

/-- Two names with one id: their variables are one variable of a row. -/
theorem effectVarId_collides :
    "Wm3" ≠ "WQda" ∧ effectVarIdFromName "Wm3" = effectVarIdFromName "WQda" ∧
      EffectRow.unionAssign ⟨∅, some (effectVarIdFromName "Wm3")⟩
        ⟨∅, some (effectVarIdFromName "WQda")⟩ =
          (⟨∅, some (effectVarIdFromName "WQda")⟩, false) ∧
      rowLessEqual ⟨∅, some (effectVarIdFromName "Wm3")⟩
        ⟨∅, some (effectVarIdFromName "WQda")⟩ = true := by
  have hid : effectVarIdFromName "Wm3" = effectVarIdFromName "WQda" := by decide
  rw [hid]
  exact ⟨by decide, rfl, rfl, by simp [rowLessEqual]⟩

end EtasFrontend.Effects
