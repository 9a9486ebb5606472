import EtasFrontend.Optimization.Hir
import EtasFrontend.Types.NumericLiteral

/-! The iteration limit of a loop, as the passes read it: `limit Iterations(n)`. -/
namespace EtasFrontend.Optimization
open Hir (HirExprId ResolvedPath Halt)
open EtasFrontend.Types

/-- `parse::<usize>().expect("checked integer literal")`. -/
def parseUsize (text : String) : Except Halt ℕ :=
  match fromStrRadix 64 10 text.toList with
  | some count => .ok count
  | none => .error .panic

namespace HirProgram
variable (program : HirProgram)

/-- The call of the only limit, with the text of its only argument. -/
def limitCall (limits : List HirExprId) : Option (List HirGenericArg × ResolvedPath × String) :=
  match limits with
  | [limit] =>
    match program.exprs limit with
    | .call callee genericArgs [.positional count] =>
      match program.exprs callee, program.exprs count with
      | .path path, .literal (.int text) => some (genericArgs, path, text)
      | _, _ => none
    | _ => none
  | _ => none

def iterationCount (limits : List HirExprId) : Except Halt (Option ℕ) :=
  match program.limitCall limits with
  | some (genericArgs, path, text) =>
    if genericArgs.isEmpty && path.segments.getLast? == some "Iterations" then
      (parseUsize text).map some
    else .ok none
  | none => .ok none

end HirProgram

def FuseProjectionScans.iterationLimitCovers (program : HirProgram) (limits : List HirExprId)
    (elementCount : ℕ) : Except Halt Bool :=
  (program.iterationCount limits).map fun count => count.any fun count => elementCount ≤ count

def SuffixDemandHistory.iterationLimitCovers (program : HirProgram) (limits : List HirExprId)
    (elementCount : ℕ) : Except Halt Bool :=
  match program.limitCall limits with
  | some (genericArgs, path, text) =>
    if genericArgs.isEmpty && path.segments.getLast? == some "Iterations" then
      (parseUsize text).map fun count => elementCount ≤ count
    else .ok false
  | none => .ok false

/-- The reader of the suffix pass, once more. -/
def SynthesizeScopedIndex.iterationLimitCovers (program : HirProgram) (limits : List HirExprId)
    (elementCount : ℕ) : Except Halt Bool :=
  SuffixDemandHistory.iterationLimitCovers program limits elementCount

theorem FuseProjectionScans.iterationLimitCovers_eq (program : HirProgram)
    (limits : List HirExprId) (k : ℕ) : FuseProjectionScans.iterationLimitCovers program limits k =
      SuffixDemandHistory.iterationLimitCovers program limits k := by
  unfold FuseProjectionScans.iterationLimitCovers HirProgram.iterationCount
    SuffixDemandHistory.iterationLimitCovers
  split
  · split_ifs
    · cases parseUsize _ <;> rfl
    · rfl
  · rfl

theorem iterationLimitCovers_eq_true {program : HirProgram} {limits : List HirExprId} {k : ℕ}
    (h : SuffixDemandHistory.iterationLimitCovers program limits k = .ok true) :
    ∃ path text count, program.limitCall limits = some ([], path, text) ∧
      path.segments.getLast? = some "Iterations" ∧ parseUsize text = .ok count ∧ k ≤ count := by
  unfold SuffixDemandHistory.iterationLimitCovers at h
  split at h
  · next genericArgs path text hcall =>
    split at h
    · next hpath =>
      simp only [Bool.and_eq_true, List.isEmpty_iff, beq_iff_eq] at hpath
      obtain ⟨rfl, hpath⟩ := hpath
      cases hparse : parseUsize text with
      | error halt =>
        rw [hparse] at h
        cases h
      | ok count =>
        rw [hparse] at h
        refine ⟨path, text, count, hcall, hpath, hparse, ?_⟩
        simpa [Except.map] using h
    · cases h
  · cases h

/-- The text has decimal digits only, behind a plus sign at most. -/
def PlainDecimal (text : String) : Prop := ∀ c ∈ dropPlus text.toList, c.isDigit

theorem parseUsize_eq_ok {text : String} {count : ℕ} :
    parseUsize text = .ok count ↔ fromStrRadix 64 10 text.toList = some count := by
  unfold parseUsize
  split <;> simp_all

theorem parseUsize_checked_iff {text : String} {primitive : PrimitiveType} {count : ℕ}
    (htext : checkedIntegerLiteral text.toList primitive = .ok ⟨false, count⟩)
    (hcount : count < 2 ^ 64) : parseUsize text = .ok count ↔ PlainDecimal text := by
  rw [parseUsize_eq_ok, fromStrRadix_eq_some (by decide)]
  simp only [isSome_toDigit_ten]
  constructor
  · exact fun h => h.2.1
  · intro hplain
    obtain ⟨hne, hvalue⟩ := checkedIntegerLiteral_of_digits hplain htext
    exact ⟨hne, hplain, hvalue, hcount⟩

/-- The readers of `Iterations(text)` agree with the checker exactly on plain texts. -/
theorem iterationLimit_reads_iff {program : HirProgram} {limit callee count : HirExprId}
    {path : ResolvedPath} {text : String} {primitive : PrimitiveType} {value : ℕ}
    (hlimit : program.exprs limit = .call callee [] [.positional count])
    (hcallee : program.exprs callee = .path path)
    (hpath : path.segments.getLast? = some "Iterations")
    (hliteral : program.exprs count = .literal (.int text))
    (htext : checkedIntegerLiteral text.toList primitive = .ok ⟨false, value⟩)
    (hvalue : value < 2 ^ 64) :
    (program.iterationCount [limit] = .ok (some value) ∧
      (∀ elements, FuseProjectionScans.iterationLimitCovers program [limit] elements =
        .ok (decide (elements ≤ value))) ∧
      (∀ elements, SuffixDemandHistory.iterationLimitCovers program [limit] elements =
        .ok (decide (elements ≤ value))) ∧
      ∀ elements, SynthesizeScopedIndex.iterationLimitCovers program [limit] elements =
        .ok (decide (elements ≤ value))) ↔ PlainDecimal text := by
  rw [← parseUsize_checked_iff htext hvalue]
  have hcall : program.limitCall [limit] = some ([], path, text) := by
    simp [HirProgram.limitCall, hlimit, hcallee, hliteral]
  have hcountEq : program.iterationCount [limit] = (parseUsize text).map some := by
    simp [HirProgram.iterationCount, hcall, hpath]
  have hsuffix (elements : ℕ) : SuffixDemandHistory.iterationLimitCovers program [limit] elements =
      (parseUsize text).map fun count => decide (elements ≤ count) := by
    simp [SuffixDemandHistory.iterationLimitCovers, hcall, hpath]
  constructor
  · rintro ⟨hread, -⟩
    rw [hcountEq] at hread
    cases hparse : parseUsize text with
    | error halt =>
      rw [hparse] at hread
      cases hread
    | ok read =>
      rw [hparse] at hread
      cases hread
      rfl
  · intro hparse
    refine ⟨by rw [hcountEq, hparse]; rfl, fun elements => ?_, fun elements => ?_,
      fun elements => ?_⟩
    · rw [FuseProjectionScans.iterationLimitCovers, hcountEq, hparse]
      rfl
    · rw [hsuffix, hparse]
      rfl
    · rw [SynthesizeScopedIndex.iterationLimitCovers, hsuffix, hparse]
      rfl

/-- A program with the expression `Iterations(text)`. -/
def limitProgram (text : String) : HirProgram :=
  { HirProgram.empty with
    exprs := fun
      | 0 => .call 1 [] [.positional 2]
      | 1 => .path ⟨["Iterations"], .unresolved, ⟨0, 0, 0⟩⟩
      | 2 => .literal (.int text)
      | _ => .error }

theorem iterationLimit_reads_decimal : (limitProgram "+16").iterationCount [0] = .ok (some 16) :=
  ((@iterationLimit_reads_iff (limitProgram "+16") 0 1 2 ⟨["Iterations"], .unresolved, ⟨0, 0, 0⟩⟩
    "+16" .u64 16 rfl rfl rfl rfl (by decide) (by decide)).mpr
      (List.all_eq_true.mp (by decide))).1

/-- The checker reads a radix prefix and separators; the limit reader panics on them. -/
theorem iterationLimit_panics :
    checkedIntegerLiteral "0x10".toList .u64 = .ok ⟨false, 16⟩ ∧
      checkedIntegerLiteral "1_6".toList .i32 = .ok ⟨false, 16⟩ ∧
      (limitProgram "0x10").iterationCount [0] = .error .panic ∧
      (limitProgram "1_6").iterationCount [0] = .error .panic := by
  decide

end EtasFrontend.Optimization
