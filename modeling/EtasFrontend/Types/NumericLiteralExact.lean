import EtasFrontend.Types.NumericLiteral

/-! The integer literals, with their values, and the texts that the checker accepts. -/
namespace EtasFrontend.Types

inductive LiteralSign where
  | none | plus | minus
  deriving DecidableEq

/-- A radix, as it is written before the digits. -/
inductive LiteralRadix where
  | decimal
  | hexadecimal (upper : Bool)
  | octal (upper : Bool)
  | binary (upper : Bool)

def LiteralSign.text : LiteralSign → List Char
  | .none => []
  | .plus => ['+']
  | .minus => ['-']

namespace LiteralRadix

def base : LiteralRadix → ℕ
  | .decimal => 10
  | .hexadecimal _ => 16
  | .octal _ => 8
  | .binary _ => 2

def text : LiteralRadix → List Char
  | .decimal => []
  | .hexadecimal upper => ['0', if upper then 'X' else 'x']
  | .octal upper => ['0', if upper then 'O' else 'o']
  | .binary upper => ['0', if upper then 'B' else 'b']

theorem base_pos (radix : LiteralRadix) : 0 < radix.base := by
  cases radix <;> simp [base]

end LiteralRadix

/-- The digits between two separators. -/
structure DigitGroup (base : ℕ) where
  digits : List Char
  nonempty : digits ≠ []
  isDigit : ∀ c ∈ digits, (toDigit base c).isSome

/-- A separator stands before each group but the first. -/
structure IntegerLiteral where
  sign : LiteralSign
  radix : LiteralRadix
  first : DigitGroup radix.base
  more : List (DigitGroup radix.base)

def separated {base : ℕ} (more : List (DigitGroup base)) : List Char :=
  more.flatMap fun group => '_' :: group.digits

namespace IntegerLiteral
variable (literal : IntegerLiteral)

def digitText : List Char := literal.first.digits ++ separated literal.more

def text : List Char := literal.sign.text ++ literal.radix.text ++ literal.digitText

def magnitude : ℕ :=
  digitsValue literal.radix.base 0 (literal.first.digits ++ literal.more.flatMap DigitGroup.digits)

def value : ℤ := if literal.sign = .minus then -literal.magnitude else literal.magnitude

end IntegerLiteral

/-- The values of an integer type, in two's complement if it is signed. -/
def InRange (primitive : PrimitiveType) (value : ℤ) : Prop :=
  match integerLayout primitive with
  | none => False
  | some (false, bits) => 0 ≤ value ∧ value < 2 ^ bits
  | some (true, bits) => -2 ^ (bits - 1) ≤ value ∧ value < 2 ^ (bits - 1)

def PrimitiveType.isUnsigned (primitive : PrimitiveType) : Bool :=
  (integerLayout primitive).any fun layout => !layout.1

def CheckedIntegerLiteral.ofInt (value : ℤ) : CheckedIntegerLiteral :=
  ⟨decide (value < 0), value.natAbs⟩

variable {radix : ℕ}

theorem checkDigits_cons_of_ne {c : Char} (hc : c ≠ '_') (previous : Option Char)
    (rest : List Char) : checkDigits radix previous (c :: rest) = .ok () ↔
      (toDigit radix c).isSome ∧ checkDigits radix (some c) rest = .ok () := by
  rw [checkDigits, if_neg hc]
  cases toDigit radix c with
  | none => simp
  | some d => simp

theorem checkDigits_separator (previous : Option Char) (rest : List Char) :
    checkDigits radix previous ('_' :: rest) = .ok () ↔
      (previous ≠ none ∧ previous ≠ some '_') ∧
        (rest ≠ [] ∧ rest.head? ≠ some '_') ∧ checkDigits radix (some '_') rest = .ok () := by
  rw [checkDigits, if_pos rfl]
  split_ifs with h
  · constructor
    · intro h
      cases h
    · tauto
  · tauto

/-- Inside of a group the rest of it comes first; before a group, a digit. By induction over the
text, with both together. -/
theorem checkDigits_groups (chars : List Char) :
    (∀ previous ≠ '_', checkDigits radix (some previous) chars = .ok () ↔
      ∃ (digits : List Char) (more : List (DigitGroup radix)),
        (∀ c ∈ digits, (toDigit radix c).isSome) ∧ chars = digits ++ separated more) ∧
    ∀ previous, (chars ≠ [] ∧ chars.head? ≠ some '_') ∧
      checkDigits radix previous chars = .ok () ↔
      ∃ (first : DigitGroup radix) (more : List (DigitGroup radix)),
        chars = first.digits ++ separated more := by
  induction chars with
  | nil =>
    constructor
    · intro previous _
      exact iff_of_true rfl ⟨[], [], by simp, rfl⟩
    · intro previous
      constructor
      · intro h
        exact absurd rfl h.1.1
      · rintro ⟨first, more, h⟩
        exact absurd (List.append_eq_nil_iff.mp h.symm).1 first.nonempty
  | cons c rest ih =>
    obtain ⟨inside, before⟩ := ih
    by_cases hc : c = '_'
    · subst hc
      constructor
      · intro previous hprevious
        rw [checkDigits_separator, and_iff_right ⟨by simp, by simpa using hprevious⟩, before]
        constructor
        · rintro ⟨first, more, rfl⟩
          exact ⟨[], first :: more, by simp, rfl⟩
        · rintro ⟨digits, more, hdigits, heq⟩
          cases digits with
          | cons d digits =>
            have hd := hdigits d List.mem_cons_self
            rw [← (List.cons.inj heq).1] at hd
            cases hd
          | nil =>
            cases more with
            | nil => cases heq
            | cons first more => exact ⟨first, more, (List.cons.inj heq).2⟩
      · intro previous
        constructor
        · intro h
          exact absurd rfl h.1.2
        · rintro ⟨first, more, heq⟩
          have hne := first.nonempty
          have hall := first.isDigit
          cases hdigits : first.digits with
          | nil => exact absurd hdigits hne
          | cons d digits =>
            rw [hdigits] at heq hall
            have hd := hall d List.mem_cons_self
            rw [← (List.cons.inj heq).1] at hd
            cases hd
    · have hstep : ∀ previous, checkDigits radix previous (c :: rest) = .ok () ↔
          (toDigit radix c).isSome ∧ ∃ (digits : List Char) (more : List (DigitGroup radix)),
            (∀ c ∈ digits, (toDigit radix c).isSome) ∧ rest = digits ++ separated more := by
        intro previous
        rw [checkDigits_cons_of_ne hc, inside c hc]
      constructor
      · intro previous _
        rw [hstep]
        constructor
        · rintro ⟨hdigit, digits, more, hdigits, rfl⟩
          exact ⟨c :: digits, more, List.forall_mem_cons.mpr ⟨hdigit, hdigits⟩, rfl⟩
        · rintro ⟨digits, more, hdigits, heq⟩
          cases digits with
          | nil =>
            cases more with
            | nil => cases heq
            | cons first more => exact absurd (List.cons.inj heq).1 hc
          | cons d digits =>
            obtain ⟨rfl, hrest⟩ := List.cons.inj heq
            rw [List.forall_mem_cons] at hdigits
            exact ⟨hdigits.1, digits, more, hdigits.2, hrest⟩
      · intro previous
        rw [hstep, and_iff_right ⟨by simp, by simpa using hc⟩]
        constructor
        · rintro ⟨hdigit, digits, more, hdigits, rfl⟩
          exact ⟨⟨c :: digits, by simp, List.forall_mem_cons.mpr ⟨hdigit, hdigits⟩⟩, more, rfl⟩
        · rintro ⟨⟨digits, hne, hdigits⟩, more, heq⟩
          cases digits with
          | nil => exact absurd rfl hne
          | cons d digits =>
            obtain ⟨rfl, hrest⟩ := List.cons.inj heq
            rw [List.forall_mem_cons] at hdigits
            exact ⟨hdigits.1, digits, more, hdigits.2, hrest⟩

theorem ne_underscore_of_digit {c : Char} (h : (toDigit radix c).isSome) : c ≠ '_' := by
  rintro rfl
  cases h

theorem filter_digits {digits : List Char} (h : ∀ c ∈ digits, (toDigit radix c).isSome) :
    digits.filter (fun ch => ch ≠ '_') = digits := by
  rw [List.filter_eq_self]
  intro c hc
  exact decide_eq_true (ne_underscore_of_digit (h c hc))

theorem filter_separated (more : List (DigitGroup radix)) :
    (separated more).filter (fun ch => ch ≠ '_') = more.flatMap DigitGroup.digits := by
  induction more with
  | nil => rfl
  | cons group more ih =>
    have hgroup := filter_digits group.isDigit
    rw [separated, List.flatMap_cons, List.filter_append, List.flatMap_cons]
    rw [List.filter_cons_of_neg (by simp), hgroup]
    exact congrArg _ ih

theorem normalizedDigits_eq_ok {digits plain : List Char} :
    normalizedDigits digits radix = .ok plain ↔
      ∃ (first : DigitGroup radix) (more : List (DigitGroup radix)),
        digits = first.digits ++ separated more ∧
          plain = first.digits ++ more.flatMap DigitGroup.digits := by
  have hcheck : digits ≠ [] → (checkDigits radix none digits = .ok () ↔
      ∃ (first : DigitGroup radix) (more : List (DigitGroup radix)),
        digits = first.digits ++ separated more) := by
    intro hne
    rw [← (checkDigits_groups digits).2 none]
    constructor
    · intro h
      refine ⟨⟨hne, ?_⟩, h⟩
      cases digits with
      | nil => exact absurd rfl hne
      | cons c rest =>
        rw [List.head?_cons, ne_eq, Option.some.injEq]
        rintro rfl
        exact absurd rfl ((checkDigits_separator none rest).mp h).1.1
    · exact fun h => h.2
  have hplain : ∀ (first : DigitGroup radix) (more : List (DigitGroup radix)),
      (first.digits ++ separated more).filter (fun ch => ch ≠ '_') =
        first.digits ++ more.flatMap DigitGroup.digits := by
    intro first more
    rw [List.filter_append, filter_digits first.isDigit, filter_separated]
  unfold normalizedDigits
  split_ifs with hnil
  · constructor
    · intro h
      cases h
    · rintro ⟨first, more, heq, -⟩
      rw [hnil] at heq
      exact absurd (List.append_eq_nil_iff.mp heq.symm).1 first.nonempty
  · cases hok : checkDigits radix none digits with
    | error message =>
      constructor
      · intro h
        cases h
      · rintro ⟨first, more, heq, -⟩
        rw [(hcheck hnil).mpr ⟨first, more, heq⟩] at hok
        cases hok
    | ok _ =>
      obtain ⟨first, more, heq⟩ := (hcheck hnil).mp hok
      constructor
      · intro h
        refine ⟨first, more, heq, ?_⟩
        rw [← hplain first more, ← heq]
        exact (Except.ok.inj h).symm
      · rintro ⟨first', more', heq', rfl⟩
        rw [← hplain first' more', ← heq']

/-! The sign and the radix. -/

theorem splitSign_cases (text : List Char) : ∃ sign : LiteralSign,
    text = sign.text ++ (splitSign text).2 ∧ (splitSign text).1 = decide (sign = .minus) := by
  unfold splitSign
  split
  · exact ⟨.minus, rfl, rfl⟩
  · exact ⟨.plus, rfl, rfl⟩
  · exact ⟨.none, rfl, rfl⟩

theorem splitRadix_cases (text : List Char) : ∃ radix : LiteralRadix,
    text = radix.text ++ (splitRadix text).2 ∧ (splitRadix text).1 = radix.base := by
  unfold splitRadix
  split
  · exact ⟨.hexadecimal false, rfl, rfl⟩
  · exact ⟨.hexadecimal true, rfl, rfl⟩
  · exact ⟨.octal false, rfl, rfl⟩
  · exact ⟨.octal true, rfl, rfl⟩
  · exact ⟨.binary false, rfl, rfl⟩
  · exact ⟨.binary true, rfl, rfl⟩
  · exact ⟨.decimal, rfl, rfl⟩

theorem mem_separated {c : Char} {more : List (DigitGroup radix)} (h : c ∈ separated more) :
    c = '_' ∨ (toDigit radix c).isSome := by
  obtain ⟨group, -, hc⟩ := List.mem_flatMap.mp h
  rcases List.mem_cons.mp hc with rfl | hc
  · exact .inl rfl
  · exact .inr (group.isDigit c hc)

namespace IntegerLiteral
variable (literal : IntegerLiteral)

theorem mem_digitText {c : Char} (h : c ∈ literal.digitText) :
    c = '_' ∨ (toDigit literal.radix.base c).isSome := by
  rcases List.mem_append.mp h with h | h
  · exact .inr (literal.first.isDigit c h)
  · exact mem_separated h

theorem unsigned_head (c : Char) (rest : List Char)
    (h : literal.radix.text ++ literal.digitText = c :: rest) : c ≠ '-' ∧ c ≠ '+' := by
  have hdigit : literal.digitText ≠ [] := by
    intro hnil
    exact literal.first.nonempty (List.append_eq_nil_iff.mp hnil).1
  cases hradix : literal.radix with
  | decimal =>
    have hc : c ∈ literal.digitText := by
      rw [hradix] at h
      have hcons : literal.digitText = c :: rest := h
      simp [hcons]
    rcases literal.mem_digitText hc with rfl | hsome
    · decide
    · constructor
      · rintro rfl
        cases hsome
      · rintro rfl
        cases hsome
  | hexadecimal upper | octal upper | binary upper =>
    rw [hradix] at h
    obtain ⟨rfl, -⟩ := List.cons.inj h
    decide

theorem splitSign_text : splitSign literal.text =
    (decide (literal.sign = .minus), literal.radix.text ++ literal.digitText) := by
  have htext : literal.text =
      literal.sign.text ++ (literal.radix.text ++ literal.digitText) := List.append_assoc ..
  rw [htext]
  cases literal.sign with
  | minus => rfl
  | plus => rfl
  | none =>
    change splitSign (literal.radix.text ++ literal.digitText) = _
    unfold splitSign
    split
    · next heq => exact absurd rfl (literal.unsigned_head _ _ heq).1
    · next heq => exact absurd rfl (literal.unsigned_head _ _ heq).2
    · rfl

theorem splitRadix_text : splitRadix (literal.radix.text ++ literal.digitText) =
    (literal.radix.base, literal.digitText) := by
  have hmem := fun c => literal.mem_digitText (c := c)
  cases hradix : literal.radix with
  | hexadecimal upper | octal upper | binary upper => cases upper <;> rfl
  | decimal =>
    rw [hradix] at hmem
    change splitRadix literal.digitText = (10, literal.digitText)
    unfold splitRadix
    split
    all_goals first
      | rfl
      | next heq =>
        have hletter := hmem _ (heq ▸ List.mem_cons_of_mem _ List.mem_cons_self)
        exact absurd hletter (by decide)

end IntegerLiteral

variable {primitive : PrimitiveType}

theorem layout_bits {signed : Bool} {bits : ℕ} (h : integerLayout primitive = some (signed, bits)) :
    bits ≤ 128 := by
  cases primitive <;> simp [integerLayout] at h <;> omega

theorem checkRange_eq_ok {negative : Bool} {magnitude : ℕ} {value : CheckedIntegerLiteral} :
    checkRange primitive negative magnitude = .ok value ↔
      InRange primitive (if negative then -magnitude else magnitude) ∧
        ¬(negative = true ∧ primitive.isUnsigned = true) ∧
          value = .ofInt (if negative then -magnitude else magnitude) := by
  have hvalue : CheckedIntegerLiteral.ofInt (if negative then -magnitude else magnitude) =
      ⟨negative && magnitude != 0, magnitude⟩ := by
    cases negative with
    | false => simp [CheckedIntegerLiteral.ofInt]
    | true =>
      have hneg : decide (-(magnitude : ℤ) < 0) = (magnitude != 0) := by
        rw [Bool.eq_iff_iff, decide_eq_true_eq, bne_iff_ne]
        omega
      simp only [CheckedIntegerLiteral.ofInt, if_true, hneg, Int.natAbs_neg, Int.natAbs_natCast,
        Bool.true_and]
  rw [hvalue]
  unfold checkRange InRange PrimitiveType.isUnsigned
  cases hlayout : integerLayout primitive with
  | none => simp
  | some layout =>
    obtain ⟨signed, bits⟩ := layout
    cases signed with
    | false =>
      have hpos : 0 < 2 ^ bits := Nat.two_pow_pos bits
      have hcast : (2 : ℤ) ^ bits = ((2 ^ bits : ℕ) : ℤ) := by push_cast; rfl
      cases negative with
      | true => simp
      | false =>
        have hmax : magnitude ≤ 2 ^ bits - 1 ↔
            0 ≤ (magnitude : ℤ) ∧ (magnitude : ℤ) < 2 ^ bits := by
          rw [hcast]
          omega
        simp only [Bool.false_eq_true, if_false, false_and, not_false_eq_true, true_and, ← hmax]
        split_ifs with hle
        · simp [hle, eq_comm]
        · simp [hle]
    | true =>
      have hpos : 0 < 2 ^ (bits - 1) := Nat.two_pow_pos (bits - 1)
      have hcast : (2 : ℤ) ^ (bits - 1) = ((2 ^ (bits - 1) : ℕ) : ℤ) := by push_cast; rfl
      have hmax : magnitude ≤ (if negative then 2 ^ (bits - 1) - 1 + 1 else 2 ^ (bits - 1) - 1) ↔
          -2 ^ (bits - 1) ≤ (if negative then -(magnitude : ℤ) else magnitude) ∧
            (if negative then -(magnitude : ℤ) else magnitude) < 2 ^ (bits - 1) := by
        rw [hcast]
        cases negative
        · simp only [Bool.false_eq_true, if_false]
          omega
        · simp only [if_true]
          omega
      dsimp only
      rw [← hmax]
      generalize (if negative then 2 ^ (bits - 1) - 1 + 1 else 2 ^ (bits - 1) - 1) = limit
      split_ifs with hle
      · simp [hle, eq_comm]
      · simp [hle]

theorem fromStrRadix_digits (literal : IntegerLiteral) (bits n : ℕ) :
    fromStrRadix bits literal.radix.base
        (literal.first.digits ++ literal.more.flatMap DigitGroup.digits) = some n ↔
      literal.magnitude = n ∧ n < 2 ^ bits := by
  have hdigits : ∀ c ∈ literal.first.digits ++ literal.more.flatMap DigitGroup.digits,
      (toDigit literal.radix.base c).isSome := by
    intro c hc
    rcases List.mem_append.mp hc with hc | hc
    · exact literal.first.isDigit c hc
    · obtain ⟨group, -, hc⟩ := List.mem_flatMap.mp hc
      exact group.isDigit c hc
  have hplus : dropPlus (literal.first.digits ++ literal.more.flatMap DigitGroup.digits) =
      literal.first.digits ++ literal.more.flatMap DigitGroup.digits := by
    apply dropPlus_of_ne
    intro rest heq
    have hsome := hdigits '+' (heq ▸ List.mem_cons_self)
    cases hsome
  have hne : literal.first.digits ++ literal.more.flatMap DigitGroup.digits ≠ [] := by
    intro hnil
    exact literal.first.nonempty (List.append_eq_nil_iff.mp hnil).1
  rw [fromStrRadix_eq_some literal.radix.base_pos, hplus, and_iff_right hne, and_iff_right hdigits]
  rfl

theorem magnitude_lt_of_inRange {literal : IntegerLiteral} (h : InRange primitive literal.value) :
    literal.magnitude < 2 ^ 128 := by
  unfold InRange at h
  cases hlayout : integerLayout primitive with
  | none =>
    rw [hlayout] at h
    exact h.elim
  | some layout =>
    obtain ⟨signed, bits⟩ := layout
    rw [hlayout] at h
    have hbits := layout_bits hlayout
    have hcast : ∀ n : ℕ, (2 : ℤ) ^ n = ((2 ^ n : ℕ) : ℤ) := fun n => by push_cast; rfl
    have habs : (literal.magnitude : ℤ) = literal.value ∨
        (literal.magnitude : ℤ) = -literal.value := by
      unfold IntegerLiteral.value
      split_ifs <;> simp
    cases signed with
    | false =>
      have hpow : 2 ^ bits ≤ 2 ^ 128 := Nat.pow_le_pow_right (by decide) hbits
      obtain ⟨hlow, hhigh⟩ := h
      rw [hcast] at hhigh
      omega
    | true =>
      have hpow : 2 ^ (bits - 1) < 2 ^ 128 := Nat.pow_lt_pow_right (by decide) (by omega)
      obtain ⟨hlow, hhigh⟩ := h
      rw [hcast] at hlow hhigh
      omega

/-- The checker accepts the literals with a value in the range of the type, and gives that value.
Only a minus sign at an unsigned type is refused whatever the value is. -/
theorem checkedIntegerLiteral_exact (text : List Char) (primitive : PrimitiveType)
    (value : CheckedIntegerLiteral) : checkedIntegerLiteral text primitive = .ok value ↔
      ∃ literal : IntegerLiteral, literal.text = text ∧ InRange primitive literal.value ∧
        ¬(literal.sign = .minus ∧ primitive.isUnsigned = true) ∧
          value = .ofInt literal.value := by
  constructor
  · intro h
    obtain ⟨sign, htext, hsign⟩ := splitSign_cases text
    obtain ⟨radix, hrest, hradix⟩ := splitRadix_cases (splitSign text).2
    unfold checkedIntegerLiteral at h
    simp only [hsign, hradix] at h
    cases hdigits : normalizedDigits (splitRadix (splitSign text).2).2 radix.base with
    | error message =>
      rw [hdigits] at h
      cases h
    | ok plain =>
      obtain ⟨first, more, hgroups, rfl⟩ := normalizedDigits_eq_ok.mp hdigits
      rw [hdigits] at h
      let literal : IntegerLiteral := ⟨sign, radix, first, more⟩
      have hread := fromStrRadix_digits literal 128
      cases hmagnitude : fromStrRadix 128 radix.base
          (first.digits ++ more.flatMap DigitGroup.digits) with
      | none =>
        simp only [hmagnitude] at h
        cases h
      | some magnitude =>
        simp only [hmagnitude] at h
        obtain ⟨rfl, -⟩ := (hread magnitude).mp hmagnitude
        obtain ⟨hrange, hunsigned, hvalue⟩ := checkRange_eq_ok.mp h
        simp only [decide_eq_true_eq] at hrange hunsigned hvalue
        refine ⟨literal, ?_, hrange, hunsigned, hvalue⟩
        rw [htext, hrest, hgroups]
        exact List.append_assoc ..
  · rintro ⟨literal, rfl, hrange, hunsigned, rfl⟩
    have hmagnitude : fromStrRadix 128 literal.radix.base
        (literal.first.digits ++ literal.more.flatMap DigitGroup.digits) =
          some literal.magnitude :=
      (fromStrRadix_digits literal 128 _).mpr ⟨rfl, magnitude_lt_of_inRange hrange⟩
    have hdigits : normalizedDigits literal.digitText literal.radix.base =
        .ok (literal.first.digits ++ literal.more.flatMap DigitGroup.digits) :=
      normalizedDigits_eq_ok.mpr ⟨literal.first, literal.more, rfl, rfl⟩
    unfold checkedIntegerLiteral
    simp only [literal.splitSign_text, literal.splitRadix_text, hdigits, hmagnitude]
    rw [checkRange_eq_ok]
    simp only [decide_eq_true_eq]
    exact ⟨hrange, hunsigned, rfl⟩

/-- Zero with a minus sign is in the range of an unsigned type, and is not accepted. -/
theorem checkedIntegerLiteral_negative_zero : ∃ literal : IntegerLiteral,
    literal.text = ['-', '0'] ∧ InRange .u8 literal.value ∧
      ∀ value, checkedIntegerLiteral literal.text .u8 ≠ .ok value := by
  let zero : DigitGroup 10 := ⟨['0'], List.cons_ne_nil _ _, fun c hc => by
    rw [List.mem_singleton.mp hc]
    rfl⟩
  have hrange : InRange .u8 (IntegerLiteral.value ⟨.minus, .decimal, zero, []⟩) := by
    constructor
    · decide
    · decide
  refine ⟨⟨.minus, .decimal, zero, []⟩, rfl, hrange, ?_⟩
  intro value h
  cases h

end EtasFrontend.Types
