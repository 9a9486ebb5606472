import EtasFrontend.Types.Ty
import Mathlib.Algebra.Order.Ring.Nat

/-! Integer literals: their texts and the values the checker reads from them. -/
namespace EtasFrontend.Types

def PrimitiveType.sourceName : PrimitiveType → String
  | .bool => "bool"
  | .i8 => "i8"
  | .i16 => "i16"
  | .i32 => "i32"
  | .i64 => "i64"
  | .i128 => "i128"
  | .iSize => "isize"
  | .u8 => "u8"
  | .u16 => "u16"
  | .u32 => "u32"
  | .u64 => "u64"
  | .u128 => "u128"
  | .uSize => "usize"
  | .f32 => "f32"
  | .f64 => "f64"
  | .char => "char"
  | .string => "string"
  | .bytes => "bytes"
  | .unit => "unit"
  | .never => "never"

/-- A validated integer value, independent of the source radix and separators. -/
structure CheckedIntegerLiteral where
  negative : Bool
  magnitude : ℕ
  deriving DecidableEq

/-! Numbers in the standard library. -/

/-- `char::to_digit`. -/
def toDigit (radix : ℕ) (c : Char) : Option ℕ :=
  let digit :=
    if c.isDigit then some (c.toNat - '0'.toNat)
    else if c.isLower then some (c.toNat - 'a'.toNat + 10)
    else if c.isUpper then some (c.toNat - 'A'.toNat + 10)
    else none
  digit.filter fun d => d < radix

/-- One digit more, in an unsigned type of some width. -/
def pushDigit (bits radix acc : ℕ) (c : Char) : Option ℕ :=
  match toDigit radix c with
  | none => none
  | some d => if acc * radix + d < 2 ^ bits then some (acc * radix + d) else none

/-- `from_str_radix` of an unsigned type: a plus sign may come before the digits. -/
def fromStrRadix (bits radix : ℕ) : List Char → Option ℕ
  | [] | ['+'] => none
  | '+' :: digits => digits.foldlM (pushDigit bits radix) 0
  | digits => digits.foldlM (pushDigit bits radix) 0

/-- The loop of `normalized_digits`, with the character before the current one. -/
def checkDigits (radix : ℕ) : Option Char → List Char → Except String Unit
  | _, [] => .ok ()
  | previous, ch :: rest =>
    if ch = '_' then
      if previous = none ∨ rest = [] ∨ previous = some '_' ∨ rest.head? = some '_' then
        .error "numeric separators must appear between digits"
      else checkDigits radix (some ch) rest
    else if (toDigit radix ch).isNone then
      .error ("`" ++ String.singleton ch ++ "` is not a base-" ++ toString radix ++ " digit")
    else checkDigits radix (some ch) rest

def normalizedDigits (digits : List Char) (radix : ℕ) : Except String (List Char) :=
  if digits = [] then .error "the integer literal has no digits"
  else
    match checkDigits radix none digits with
    | .error message => .error message
    | .ok () => .ok (digits.filter fun ch => ch ≠ '_')

/-- Whether the type is signed, and its width. -/
def integerLayout : PrimitiveType → Option (Bool × ℕ)
  | .i8 => some (true, 8)
  | .i16 => some (true, 16)
  | .i32 => some (true, 32)
  | .i64 => some (true, 64)
  | .i128 => some (true, 128)
  | .iSize => some (true, 64)
  | .u8 => some (false, 8)
  | .u16 => some (false, 16)
  | .u32 => some (false, 32)
  | .u64 => some (false, 64)
  | .u128 => some (false, 128)
  | .uSize => some (false, 64)
  | _ => none

/-- The radix that a prefix stands for, and what follows the prefix. -/
def splitRadix : List Char → ℕ × List Char
  | '0' :: 'x' :: digits | '0' :: 'X' :: digits => (16, digits)
  | '0' :: 'o' :: digits | '0' :: 'O' :: digits => (8, digits)
  | '0' :: 'b' :: digits | '0' :: 'B' :: digits => (2, digits)
  | digits => (10, digits)

def splitSign : List Char → Bool × List Char
  | '-' :: digits => (true, digits)
  | '+' :: digits => (false, digits)
  | digits => (false, digits)

/-- The last step: the value against the range of the type. -/
def checkRange (primitive : PrimitiveType) (negative : Bool) (magnitude : ℕ) :
    Except String CheckedIntegerLiteral :=
  let value := ⟨negative && magnitude != 0, magnitude⟩
  let outside := Except.error ("the value is outside the range of " ++ primitive.sourceName)
  match integerLayout primitive with
  | none => .error "an integer literal requires an integer target type"
  | some (false, bits) =>
    if negative then
      .error ("a negative literal is not representable as " ++ primitive.sourceName)
    else if magnitude ≤ 2 ^ bits - 1 then .ok value
    else outside
  | some (true, bits) =>
    let maximum := 2 ^ (bits - 1) - 1
    if magnitude ≤ (if negative then maximum + 1 else maximum) then .ok value else outside

def checkedIntegerLiteral (text : List Char) (primitive : PrimitiveType) :
    Except String CheckedIntegerLiteral :=
  let (negative, digits) := splitSign text
  let (radix, digits) := splitRadix digits
  match normalizedDigits digits radix with
  | .error message => .error message
  | .ok digits =>
    match fromStrRadix 128 radix digits with
    | none => .error "the integer magnitude exceeds 128 bits"
    | some magnitude => checkRange primitive negative magnitude

/-! What the digits stand for. -/

@[simp] theorem toDigit_underscore (radix : ℕ) : toDigit radix '_' = none := rfl

@[simp] theorem toDigit_plus (radix : ℕ) : toDigit radix '+' = none := rfl

@[simp] theorem toDigit_minus (radix : ℕ) : toDigit radix '-' = none := rfl

def digitsValue (radix acc : ℕ) (digits : List Char) : ℕ :=
  digits.foldl (fun acc c => acc * radix + (toDigit radix c).getD 0) acc

theorem le_digitsValue {radix acc : ℕ} (hradix : 0 < radix) (digits : List Char) :
    acc ≤ digitsValue radix acc digits := by
  induction digits generalizing acc with
  | nil => exact le_rfl
  | cons c digits ih =>
    calc acc ≤ acc * radix := Nat.le_mul_of_pos_right acc hradix
      _ ≤ acc * radix + (toDigit radix c).getD 0 := Nat.le_add_right ..
      _ ≤ digitsValue radix acc (c :: digits) := ih

theorem foldlM_pushDigit {bits radix acc n : ℕ} (hradix : 0 < radix) (hacc : acc < 2 ^ bits)
    (digits : List Char) : digits.foldlM (pushDigit bits radix) acc = some n ↔
      (∀ c ∈ digits, (toDigit radix c).isSome) ∧ digitsValue radix acc digits = n ∧
        n < 2 ^ bits := by
  induction digits generalizing acc with
  | nil =>
    constructor
    · intro h
      cases h
      exact ⟨by simp, rfl, hacc⟩
    · rintro ⟨-, rfl, -⟩
      rfl
  | cons c digits ih =>
    rw [List.foldlM_cons, List.forall_mem_cons]
    cases hd : toDigit radix c with
    | none => simp [pushDigit, hd]
    | some d =>
      have hvalue : digitsValue radix acc (c :: digits) =
          digitsValue radix (acc * radix + d) digits := by
        rw [digitsValue, List.foldl_cons, hd]
        rfl
      rw [hvalue]
      by_cases hfits : acc * radix + d < 2 ^ bits
      · have hpush : pushDigit bits radix acc c = some (acc * radix + d) := by
          simp [pushDigit, hd, hfits]
        rw [hpush, Option.bind_eq_bind, Option.bind_some, ih hfits]
        simp
      · have hpush : pushDigit bits radix acc c = none := by simp [pushDigit, hd, hfits]
        have hover : acc * radix + d ≤ digitsValue radix (acc * radix + d) digits :=
          le_digitsValue hradix digits
        simp only [hpush, Option.bind_eq_bind, Option.bind_none, reduceCtorEq, false_iff, not_and]
        omega

def dropPlus : List Char → List Char
  | '+' :: digits => digits
  | digits => digits

variable {digits : List Char}

theorem dropPlus_of_ne (h : ∀ rest, digits ≠ '+' :: rest) : dropPlus digits = digits := by
  unfold dropPlus
  split
  · next rest => exact absurd rfl (h rest)
  · rfl

theorem fromStrRadix_eq_some {bits radix n : ℕ} (hradix : 0 < radix) (src : List Char) :
    fromStrRadix bits radix src = some n ↔ dropPlus src ≠ [] ∧
      (∀ c ∈ dropPlus src, (toDigit radix c).isSome) ∧ digitsValue radix 0 (dropPlus src) = n ∧
        n < 2 ^ bits := by
  have hfold := foldlM_pushDigit (n := n) hradix (Nat.two_pow_pos bits) (dropPlus src)
  unfold fromStrRadix
  split
  · simp [dropPlus]
  · simp [dropPlus]
  · next digits hne =>
    rw [← hfold]
    simp only [dropPlus, ne_eq]
    exact (and_iff_right fun h => hne h).symm
  · next hnil _ hplus =>
    have hdrop : dropPlus src = src := dropPlus_of_ne hplus
    rw [hdrop] at hfold ⊢
    rw [← hfold]
    exact (and_iff_right fun h => hnil h).symm

theorem isSome_toDigit_ten {c : Char} : (toDigit 10 c).isSome ↔ c.isDigit := by
  unfold toDigit
  split_ifs with hd hl hu
  · have hlt : c.toNat - '0'.toNat < 10 := by
      have hc : c.val ≤ 57 := by
        simp only [Char.isDigit, ge_iff_le, Bool.and_eq_true, decide_eq_true_eq] at hd
        exact hd.2
      have : c.toNat ≤ 57 := hc
      have h0 : '0'.toNat = 48 := rfl
      omega
    rw [Option.filter_some, if_pos (decide_eq_true hlt)]
    simp [hd]
  · simp [Option.filter, hd]
  · simp [Option.filter, hd]
  · simp [Option.filter, hd]

section
variable (h : ∀ c ∈ digits, c.isDigit)
include h

theorem splitRadix_of_digits : splitRadix digits = (10, digits) := by
  unfold splitRadix
  split
  all_goals first
    | rfl
    | exact absurd (h _ (List.mem_cons_of_mem _ List.mem_cons_self)) (by decide)

theorem checkDigits_of_digits (previous : Option Char) :
    checkDigits 10 previous digits = .ok () := by
  induction digits generalizing previous with
  | nil => rfl
  | cons c digits ih =>
    rw [List.forall_mem_cons] at h
    have hc : c ≠ '_' := by
      rintro rfl
      exact absurd h.1 (by decide)
    have hsome : ¬ (toDigit 10 c).isNone := by
      rw [← Option.not_isSome, isSome_toDigit_ten.mpr h.1]
      simp
    rw [checkDigits, if_neg hc, if_neg hsome]
    exact ih h.2 _

theorem normalizedDigits_of_digits (hne : digits ≠ []) :
    normalizedDigits digits 10 = .ok digits := by
  rw [normalizedDigits, if_neg hne, checkDigits_of_digits h]
  have hkept : digits.filter (fun ch => ch ≠ '_') = digits := by
    rw [List.filter_eq_self]
    intro c hc
    have hdigit := h c hc
    rw [decide_eq_true_eq]
    rintro rfl
    exact absurd hdigit (by decide)
  simp only [hkept]

end

theorem checkRange_magnitude {primitive : PrimitiveType} {negative : Bool} {magnitude : ℕ}
    {value : CheckedIntegerLiteral} (h : checkRange primitive negative magnitude = .ok value) :
    value.magnitude = magnitude := by
  unfold checkRange at h
  split at h
  · cases h
  · split_ifs at h
    cases h
    rfl
  · dsimp only at h
    split_ifs at h <;> cases h <;> rfl

variable {text : List Char}

theorem splitSign_of_digits (h : ∀ c ∈ dropPlus text, c.isDigit) :
    splitSign text = (false, dropPlus text) := by
  unfold splitSign
  split
  · exact absurd (h '-' List.mem_cons_self) (by decide)
  · rfl
  · next hplus => rw [dropPlus_of_ne hplus]

theorem dropPlus_of_digits (h : ∀ c ∈ digits, c.isDigit) : dropPlus digits = digits := by
  unfold dropPlus
  split
  · exact absurd (h '+' List.mem_cons_self) (by decide)
  · rfl

theorem checkedIntegerLiteral_of_digits {primitive : PrimitiveType}
    {value : CheckedIntegerLiteral} (hdigits : ∀ c ∈ dropPlus text, c.isDigit)
    (h : checkedIntegerLiteral text primitive = .ok value) :
    dropPlus text ≠ [] ∧ digitsValue 10 0 (dropPlus text) = value.magnitude := by
  unfold checkedIntegerLiteral at h
  rw [splitSign_of_digits hdigits] at h
  simp only [splitRadix_of_digits hdigits] at h
  have hne : dropPlus text ≠ [] := by
    intro hnil
    rw [hnil] at h
    cases h
  simp only [normalizedDigits_of_digits hdigits hne] at h
  cases hread : fromStrRadix 128 10 (dropPlus text) with
  | none =>
    rw [hread] at h
    cases h
  | some magnitude =>
    rw [hread] at h
    have hvalue := checkRange_magnitude h
    obtain ⟨-, -, hsum, -⟩ := (fromStrRadix_eq_some (by decide) _).mp hread
    rw [dropPlus_of_digits hdigits] at hsum
    exact ⟨hne, hsum.trans hvalue.symm⟩

theorem checkedIntegerLiteral_of_parsed {count : ℕ} (h : fromStrRadix 64 10 text = some count) :
    checkedIntegerLiteral text .u64 = .ok ⟨false, count⟩ := by
  obtain ⟨hne, hdigits, hvalue, hcount⟩ := (fromStrRadix_eq_some (by decide) _).mp h
  simp only [isSome_toDigit_ten] at hdigits
  have hread : fromStrRadix 128 10 (dropPlus text) = some count := by
    rw [fromStrRadix_eq_some (by decide), dropPlus_of_digits hdigits]
    refine ⟨hne, by simpa only [isSome_toDigit_ten] using hdigits, hvalue, ?_⟩
    exact hcount.trans (by decide)
  rw [checkedIntegerLiteral, splitSign_of_digits hdigits]
  simp only [splitRadix_of_digits hdigits, normalizedDigits_of_digits hdigits hne, hread]
  rw [checkRange, integerLayout]
  exact if_pos (Nat.le_sub_one_of_lt hcount)

end EtasFrontend.Types
