import Mathlib.Algebra.GroupWithZero.Nat
import Mathlib.Tactic.SplitIfs

/-! Text addressed by byte offsets: a slice exists only between boundaries of characters. -/
namespace EtasFrontend.Lib.Utf8

def size (text : List Char) : ℕ := (text.map Char.utf8Size).sum

def bytes (text : List Char) : List UInt8 := text.flatMap String.utf8EncodeChar

/-- The text from an offset on. -/
def sliceFrom : List Char → ℕ → Option (List Char)
  | text, 0 => some text
  | [], _ + 1 => none
  | c :: text, n + 1 =>
    if c.utf8Size ≤ n + 1 then sliceFrom text (n + 1 - c.utf8Size) else none

/-- The text up to an offset. -/
def sliceTo : List Char → ℕ → Option (List Char)
  | _, 0 => some []
  | [], _ + 1 => none
  | c :: text, n + 1 =>
    if c.utf8Size ≤ n + 1 then (sliceTo text (n + 1 - c.utf8Size)).map (c :: ·) else none

def slice (text : List Char) (start stop : ℕ) : Option (List Char) :=
  (sliceTo text stop).bind (sliceFrom · start)

def Boundary (text : List Char) (offset : ℕ) : Prop :=
  ∃ before after, text = before ++ after ∧ size before = offset

@[simp] theorem size_nil : size [] = 0 := rfl

@[simp] theorem size_cons (c : Char) (text : List Char) :
    size (c :: text) = c.utf8Size + size text := rfl

@[simp] theorem size_append (before after : List Char) :
    size (before ++ after) = size before + size after := by
  simp [size]

theorem length_le_size (text : List Char) : text.length ≤ size text := by
  induction text with
  | nil => exact Nat.le_refl 0
  | cons c text ih =>
    have := c.utf8Size_pos
    rw [List.length_cons, size_cons]
    omega

theorem sliceFrom_size (before after : List Char) :
    sliceFrom (before ++ after) (size before) = some after := by
  induction before with
  | nil => cases after <;> rfl
  | cons c before ih =>
    have := c.utf8Size_pos
    obtain ⟨n, hn⟩ : ∃ n, size (c :: before) = n + 1 := ⟨size (c :: before) - 1, by simp; omega⟩
    rw [hn, List.cons_append, sliceFrom, ← hn, size_cons, if_pos (Nat.le_add_right _ _),
      Nat.add_sub_cancel_left]
    exact ih

theorem sliceTo_size (before after : List Char) :
    sliceTo (before ++ after) (size before) = some before := by
  induction before with
  | nil => cases after <;> rfl
  | cons c before ih =>
    have := c.utf8Size_pos
    obtain ⟨n, hn⟩ : ∃ n, size (c :: before) = n + 1 := ⟨size (c :: before) - 1, by simp; omega⟩
    rw [hn, List.cons_append, sliceTo, ← hn, size_cons, if_pos (Nat.le_add_right _ _),
      Nat.add_sub_cancel_left, ih]
    rfl

theorem slice_size (before mid after : List Char) :
    slice (before ++ mid ++ after) (size before) (size before + size mid) = some mid := by
  rw [slice, ← size_append, sliceTo_size, Option.bind_some, sliceFrom_size]

theorem boundary_size (before after : List Char) : Boundary (before ++ after) (size before) :=
  ⟨before, after, rfl, rfl⟩

theorem sliceFrom_eq_some {text rest : List Char} {offset : ℕ}
    (h : sliceFrom text offset = some rest) : ∃ before, text = before ++ rest ∧ size before = offset := by
  induction text generalizing offset with
  | nil =>
    cases offset with
    | zero => exact ⟨[], Option.some.inj h, rfl⟩
    | succ n => cases h
  | cons c text ih =>
    cases offset with
    | zero => exact ⟨[], Option.some.inj h, rfl⟩
    | succ n =>
      rw [sliceFrom] at h
      split at h
      case isTrue hle =>
        obtain ⟨before, rfl, hsize⟩ := ih h
        exact ⟨c :: before, rfl, by rw [size_cons, hsize]; omega⟩
      case isFalse => cases h

namespace Boundary
variable {text : List Char} {offset : ℕ}

theorem zero (text : List Char) : Boundary text 0 := ⟨[], text, rfl, rfl⟩

theorem full (text : List Char) : Boundary text (size text) :=
  ⟨text, [], (List.append_nil _).symm, rfl⟩

theorem le (h : Boundary text offset) : offset ≤ size text := by
  obtain ⟨before, after, rfl, rfl⟩ := h
  rw [size_append]
  exact Nat.le_add_right _ _

/-- What starts at a boundary leads to another one. -/
theorem add (start : List Char) {rest : List Char}
    (h : sliceFrom text offset = some (start ++ rest)) : Boundary text (offset + size start) := by
  obtain ⟨before, rfl, rfl⟩ := sliceFrom_eq_some h
  rw [← List.append_assoc, ← size_append]
  exact boundary_size _ _

theorem next (h : Boundary text offset) (hlt : offset < size text) :
    ∃ c rest, sliceFrom text offset = some (c :: rest) ∧ Boundary text (offset + c.utf8Size) := by
  obtain ⟨before, after, rfl, rfl⟩ := h
  cases after with
  | nil =>
    rw [size_append] at hlt
    exact absurd hlt (Nat.lt_irrefl _)
  | cons c rest =>
    have hslice := sliceFrom_size before (c :: rest)
    exact ⟨c, rest, hslice, add [c] hslice⟩

theorem of_sliceFrom {rest : List Char} (h : sliceFrom text offset = some rest) :
    Boundary text offset := by
  obtain ⟨before, rfl, rfl⟩ := sliceFrom_eq_some h
  exact boundary_size before rest

end Boundary

/-- Between two boundaries there is text. -/
theorem exists_between {text : List Char} {start stop : ℕ} (hstart : Boundary text start)
    (hstop : Boundary text stop) (hle : start ≤ stop) :
    ∃ before mid after, text = before ++ mid ++ after ∧ size before = start ∧
      size before + size mid = stop := by
  obtain ⟨before, rest, rfl, rfl⟩ := hstart
  obtain ⟨upTo, after, heq, rfl⟩ := hstop
  obtain ⟨mid, rfl, rfl⟩ | ⟨mid, rfl, rfl⟩ := List.append_eq_append_iff.mp heq
  · exact ⟨before, mid, after, (List.append_assoc ..).symm, rfl, (size_append ..).symm⟩
  · -- the second boundary is not before the first one: nothing is between them
    have hmid : mid = [] := by
      have := length_le_size mid
      rw [size_append] at hle
      exact List.length_eq_zero_iff.mp (by omega)
    subst hmid
    exact ⟨upTo, [], rest, by simp, by simp, by simp⟩

theorem slice_of_boundary {text : List Char} {start stop : ℕ} (hstart : Boundary text start)
    (hstop : Boundary text stop) (hle : start ≤ stop) : ∃ mid, slice text start stop = some mid := by
  obtain ⟨before, mid, after, rfl, rfl, rfl⟩ := exists_between hstart hstop hle
  exact ⟨mid, slice_size before mid after⟩

theorem length_bytes (text : List Char) : (bytes text).length = size text := by
  simp [bytes, size, List.length_flatMap]

theorem bytes_append (before after : List Char) :
    bytes (before ++ after) = bytes before ++ bytes after := by
  simp [bytes]

/-- A byte below 128 is a character by itself: it is no part of another one. -/
theorem utf8EncodeChar_of_ascii {c : Char} {b : UInt8} (hb : b.toNat < 128)
    (h : b ∈ String.utf8EncodeChar c) : c.val.toNat = b.toNat := by
  have hhigh {v : ℕ} (hlow : 128 ≤ v) (hv : v < 256) : ¬(UInt8.ofNat v).toNat < 128 := by
    rw [UInt8.toNat_ofNat']
    omega
  unfold String.utf8EncodeChar at h
  dsimp only at h
  split_ifs at h
  · rw [List.mem_singleton.mp h, UInt8.toNat_ofNat']
    omega
  all_goals
    simp only [List.mem_cons, List.not_mem_nil, or_false] at h
  · obtain rfl | rfl := h
    · exact absurd hb (hhigh (by omega) (by omega))
    · exact absurd hb (hhigh (by omega) (by omega))
  · obtain rfl | rfl | rfl := h
    · exact absurd hb (hhigh (by omega) (by omega))
    · exact absurd hb (hhigh (by omega) (by omega))
    · exact absurd hb (hhigh (by omega) (by omega))
  · obtain rfl | rfl | rfl | rfl := h
    · exact absurd hb (hhigh (by omega) (by omega))
    · exact absurd hb (hhigh (by omega) (by omega))
    · exact absurd hb (hhigh (by omega) (by omega))
    · exact absurd hb (hhigh (by omega) (by omega))

end EtasFrontend.Lib.Utf8
