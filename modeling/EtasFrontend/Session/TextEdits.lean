import EtasFrontend.Session.Change
import EtasFrontend.Lib.StableSort

/-! What a list of text edits does to a text when no two of its ranges overlap: every edit takes
place where it lies in the original text. -/
namespace EtasFrontend.Session
open Lib

namespace TextEdit

/-- The range is a range of characters of the text. -/
def ValidIn (edit : TextEdit) (text : List Char) : Prop :=
  edit.start ≤ edit.stop ∧ (splitAtByte edit.start text).isSome ∧
    (splitAtByte edit.stop text).isSome

/-- The ranges do not overlap. An insertion may lie at the border of a range. -/
def Separate (a b : TextEdit) : Prop := a.stop ≤ b.start ∨ b.stop ≤ a.start

/-- No edit comes after a replacement that starts where it starts. -/
def InsertsFirst (a b : TextEdit) : Prop := a.start = b.start → a.stop = a.start

instance (edit : TextEdit) (text : List Char) : Decidable (edit.ValidIn text) :=
  inferInstanceAs (Decidable (_ ∧ _ ∧ _))

instance (a b : TextEdit) : Decidable (a.Separate b) := inferInstanceAs (Decidable (_ ∨ _))

instance (a b : TextEdit) : Decidable (a.InsertsFirst b) := inferInstanceAs (Decidable (_ → _))

end TextEdit

/-- What the edits put at an offset, in the order of the list. -/
def insertedAt (edits : List TextEdit) (offset : ℕ) : List Char :=
  (withKey TextEdit.start offset edits).flatMap TextEdit.replacement

/-- Whether an edit replaces the character at an offset. -/
def replacedAt (edits : List TextEdit) (offset : ℕ) : Bool :=
  edits.any fun edit => edit.start ≤ offset && offset < edit.stop

/-- All edits at once, over the text from an offset on. -/
def simultaneousFrom (edits : List TextEdit) : ℕ → List Char → List Char
  | offset, [] => insertedAt edits offset
  | offset, c :: text =>
    insertedAt edits offset ++ (if replacedAt edits offset then [] else [c]) ++
      simultaneousFrom edits (offset + c.utf8Size) text

def simultaneous (edits : List TextEdit) (text : List Char) : List Char :=
  simultaneousFrom edits 0 text

@[simp] theorem byteLength_nil : byteLength [] = 0 := rfl

@[simp] theorem byteLength_cons (c : Char) (text : List Char) :
    byteLength (c :: text) = c.utf8Size + byteLength text := rfl

@[simp] theorem byteLength_append (pre post : List Char) :
    byteLength (pre ++ post) = byteLength pre + byteLength post := by
  simp [byteLength]

theorem splitAtByte_append (pre post : List Char) :
    splitAtByte (byteLength pre) (pre ++ post) = some (pre, post) := by
  induction pre with
  | nil => simp [splitAtByte]
  | cons c pre ih =>
    have hpos : 0 < c.utf8Size := c.utf8Size_pos
    obtain ⟨n, hn⟩ : ∃ n, c.utf8Size + byteLength pre = n + 1 := ⟨_, (by omega :
      c.utf8Size + byteLength pre = c.utf8Size + byteLength pre - 1 + 1)⟩
    have hrest : n + 1 - c.utf8Size = byteLength pre := by omega
    rw [byteLength_cons, List.cons_append, hn, splitAtByte, if_pos (by omega), hrest, ih]
    rfl

theorem splitAtByte_eq_some {n : ℕ} {text pre post : List Char}
    (h : splitAtByte n text = some (pre, post)) : text = pre ++ post ∧ byteLength pre = n := by
  induction n, text using splitAtByte.induct generalizing pre with
  | case1 text =>
    cases text <;> cases h <;> exact ⟨rfl, rfl⟩
  | case2 => cases h
  | case3 n c text hle ih =>
    rw [splitAtByte, if_pos hle] at h
    obtain ⟨⟨pre', post'⟩, hsplit, hparts⟩ := Option.map_eq_some_iff.mp h
    cases hparts
    obtain ⟨rfl, hlen⟩ := ih hsplit
    exact ⟨rfl, by rw [byteLength_cons, hlen]; omega⟩
  | case4 n c text hle =>
    rw [splitAtByte, if_neg hle] at h
    cases h

/-! The edits of the specification, one region of the text at a time. -/

variable {edits : List TextEdit} {offset : ℕ}

theorem insertedAt_eq_nil (h : ∀ e ∈ edits, e.start ≠ offset) : insertedAt edits offset = [] := by
  have hnone : withKey TextEdit.start offset edits = [] :=
    List.filter_eq_nil_iff.mpr fun e he => by simpa using h e he
  rw [insertedAt, hnone]
  rfl

theorem insertedAt_cons (e : TextEdit) (edits : List TextEdit) (offset : ℕ) :
    insertedAt (e :: edits) offset =
      (if e.start = offset then e.replacement else []) ++ insertedAt edits offset := by
  by_cases h : e.start = offset <;> simp [insertedAt, withKey, h]

theorem replacedAt_cons (e : TextEdit) (edits : List TextEdit) (offset : ℕ) :
    replacedAt (e :: edits) offset =
      (decide (e.start ≤ offset) && decide (offset < e.stop) || replacedAt edits offset) := rfl

theorem replacedAt_eq_false (h : ∀ e ∈ edits, offset < e.start) :
    replacedAt edits offset = false := by
  rw [replacedAt, List.any_eq_false]
  intro e he
  have := h e he
  simp only [Bool.and_eq_true, decide_eq_true_eq, not_and]
  omega

@[simp] theorem simultaneousFrom_nil (offset : ℕ) (text : List Char) :
    simultaneousFrom [] offset text = text := by
  induction text generalizing offset with
  | nil => rfl
  | cons c text ih =>
    rw [simultaneousFrom, ih]
    rfl

theorem simultaneousFrom_append (pre post : List Char)
    (h : ∀ e ∈ edits, offset + byteLength pre ≤ e.start) :
    simultaneousFrom edits offset (pre ++ post) =
      pre ++ simultaneousFrom edits (offset + byteLength pre) post := by
  induction pre generalizing offset with
  | nil => rfl
  | cons c pre ih =>
    have hpos : 0 < c.utf8Size := c.utf8Size_pos
    simp only [byteLength_cons] at h ⊢
    have hnone : insertedAt edits offset = [] :=
      insertedAt_eq_nil fun e he => by have := h e he; omega
    have hkept : replacedAt edits offset = false :=
      replacedAt_eq_false fun e he => by have := h e he; omega
    rw [List.cons_append, simultaneousFrom, hnone, hkept,
      ih fun e he => by have := h e he; omega]
    simp [Nat.add_assoc]

variable {e : TextEdit}

theorem simultaneousFrom_cons_passed (hstart : e.start < offset) (hstop : e.stop ≤ offset)
    (text : List Char) :
    simultaneousFrom (e :: edits) offset text = simultaneousFrom edits offset text := by
  induction text generalizing offset with
  | nil => rw [simultaneousFrom, simultaneousFrom, insertedAt_cons, if_neg (by omega)]; rfl
  | cons c text ih =>
    have hpassed : decide (offset < e.stop) = false := by simpa using hstop
    rw [simultaneousFrom, simultaneousFrom, insertedAt_cons, if_neg (by omega), replacedAt_cons,
      hpassed, Bool.and_false, Bool.false_or, ih (by omega) (by omega)]
    rfl

theorem simultaneousFrom_cons_inside (mid post : List Char) (hstart : e.start < offset)
    (hstop : e.stop = offset + byteLength mid) (h : ∀ d ∈ edits, e.stop ≤ d.start) :
    simultaneousFrom (e :: edits) offset (mid ++ post) = simultaneousFrom edits e.stop post := by
  induction mid generalizing offset with
  | nil =>
    rw [byteLength_nil, Nat.add_zero] at hstop
    rw [hstop] at h ⊢
    exact simultaneousFrom_cons_passed hstart hstop.le post
  | cons c mid ih =>
    have hpos : 0 < c.utf8Size := c.utf8Size_pos
    rw [byteLength_cons] at hstop
    have hnone : insertedAt (e :: edits) offset = [] := insertedAt_eq_nil fun d hd => by
      rcases List.mem_cons.mp hd with rfl | hd
      · omega
      · have := h d hd; omega
    have hinside : replacedAt (e :: edits) offset = true := by
      rw [replacedAt_cons, decide_eq_true (by omega), decide_eq_true (by omega)]
      rfl
    rw [List.cons_append, simultaneousFrom, hnone, hinside, ih (by omega) (by omega)]
    rfl

theorem simultaneousFrom_cons_start (mid post : List Char)
    (hstop : e.stop = e.start + byteLength mid) (h : ∀ d ∈ edits, e.stop ≤ d.start) :
    simultaneousFrom (e :: edits) e.start (mid ++ post) =
      e.replacement ++ simultaneousFrom edits e.stop post := by
  cases mid with
  | nil =>
    rw [byteLength_nil, Nat.add_zero] at hstop
    cases post with
    | nil =>
      rw [List.append_nil, simultaneousFrom, simultaneousFrom, insertedAt_cons, if_pos rfl, hstop]
    | cons c post =>
      have hpos : 0 < c.utf8Size := c.utf8Size_pos
      have hnot : decide (e.start < e.stop) = false := by simpa using hstop.le
      rw [List.nil_append, simultaneousFrom, simultaneousFrom, insertedAt_cons, if_pos rfl,
        replacedAt_cons, hnot, Bool.and_false, Bool.false_or, hstop,
        simultaneousFrom_cons_passed (by omega) (by omega)]
      simp
  | cons c mid =>
    have hpos : 0 < c.utf8Size := c.utf8Size_pos
    rw [byteLength_cons] at hstop
    have hnone : insertedAt edits e.start = [] := insertedAt_eq_nil fun d hd => by
      have := h d hd
      omega
    have hinside : replacedAt (e :: edits) e.start = true := by
      rw [replacedAt_cons, decide_eq_true (by omega), decide_eq_true (by omega)]
      rfl
    rw [List.cons_append, simultaneousFrom, insertedAt_cons, if_pos rfl, hnone, hinside,
      simultaneousFrom_cons_inside mid post (by omega) (by omega) h]
    simp

theorem simultaneousFrom_congr {edits edits' : List TextEdit} (hmem : ∀ e, e ∈ edits ↔ e ∈ edits')
    (h : ∀ start, withKey TextEdit.start start edits = withKey TextEdit.start start edits')
    (offset : ℕ) (text : List Char) :
    simultaneousFrom edits offset text = simultaneousFrom edits' offset text := by
  have hinserted (offset : ℕ) : insertedAt edits offset = insertedAt edits' offset := by
    rw [insertedAt, insertedAt, h]
  have hreplaced (offset : ℕ) : replacedAt edits offset = replacedAt edits' offset := by
    rw [Bool.eq_iff_iff, replacedAt, replacedAt, List.any_eq_true, List.any_eq_true]
    simp only [hmem]
  induction text generalizing offset with
  | nil => exact hinserted offset
  | cons c text ih => rw [simultaneousFrom, simultaneousFrom, hinserted, hreplaced, ih]

/-! One edit, and from the last to the first all of them. -/

theorem applyTextEdit_simultaneous (source : SourceId) {text : List Char} (hvalid : e.ValidIn text)
    (h : ∀ d ∈ edits, e.stop ≤ d.start) :
    applyTextEdit source (simultaneous edits text) e = (simultaneous (e :: edits) text, none) := by
  obtain ⟨hle, hstart, hstop⟩ := hvalid
  obtain ⟨⟨pre, rest⟩, hstart⟩ := Option.isSome_iff_exists.mp hstart
  obtain ⟨⟨front, post⟩, hstop⟩ := Option.isSome_iff_exists.mp hstop
  obtain ⟨rfl, hpre⟩ := splitAtByte_eq_some hstart
  obtain ⟨htext, hfront⟩ := splitAtByte_eq_some hstop
  obtain ⟨mid, rfl, rfl⟩ : ∃ mid, front = pre ++ mid ∧ rest = mid ++ post := by
    rcases List.append_eq_append_iff.mp htext with ⟨mid, rfl, rfl⟩ | ⟨mid, rfl, rfl⟩
    · exact ⟨mid, rfl, rfl⟩
    · rw [byteLength_append] at hpre
      have hmid : mid = [] := by
        cases mid with
        | nil => rfl
        | cons c mid =>
          have := c.utf8Size_pos
          rw [byteLength_cons] at hpre
          omega
      subst hmid
      exact ⟨[], by simp, by simp⟩
  rw [byteLength_append] at hfront
  have hlater : simultaneous edits (pre ++ (mid ++ post)) =
      pre ++ (mid ++ simultaneousFrom edits e.stop post) := by
    rw [← List.append_assoc, simultaneous, simultaneousFrom_append _ _ fun d hd => by
      rw [byteLength_append]; have := h d hd; omega]
    rw [byteLength_append, Nat.zero_add, hfront, List.append_assoc]
  have hall : simultaneous (e :: edits) (pre ++ (mid ++ post)) =
      pre ++ e.replacement ++ simultaneousFrom edits e.stop post := by
    have hbehind : ∀ d ∈ e :: edits, 0 + byteLength pre ≤ d.start := fun d hd => by
      rcases List.mem_cons.mp hd with rfl | hd
      · omega
      · have := h d hd; omega
    rw [simultaneous, simultaneousFrom_append _ _ hbehind, Nat.zero_add, hpre,
      simultaneousFrom_cons_start mid post (by omega) h, List.append_assoc]
  have hsplitStart : splitAtByte e.start (pre ++ (mid ++ simultaneousFrom edits e.stop post)) =
      some (pre, mid ++ simultaneousFrom edits e.stop post) := by
    rw [← hpre]
    exact splitAtByte_append _ _
  have hsplitStop : splitAtByte e.stop (pre ++ (mid ++ simultaneousFrom edits e.stop post)) =
      some (pre ++ mid, simultaneousFrom edits e.stop post) := by
    rw [← hfront, ← byteLength_append, ← List.append_assoc]
    exact splitAtByte_append _ _
  rw [hlater, hall, applyTextEdit]
  simp only [if_neg (by omega : ¬ e.start > e.stop), hsplitStart, hsplitStop]

theorem runSteps_simultaneous (source : SourceId) {text : List Char}
    (hsorted : edits.Pairwise fun a b => a.start ≤ b.start) (hvalid : ∀ e ∈ edits, e.ValidIn text)
    (hseparate : edits.Pairwise TextEdit.Separate) (hfirst : edits.Pairwise TextEdit.InsertsFirst) :
    runSteps (applyTextEdit source) text edits.reverse = (simultaneous edits text, none) := by
  induction edits with
  | nil => simp [runSteps, simultaneous]
  | cons e edits ih =>
    rw [List.pairwise_cons] at hsorted hseparate hfirst
    have hlater := ih hsorted.2 (fun d hd => hvalid d (List.mem_cons_of_mem _ hd)) hseparate.2
      hfirst.2
    have hbehind : ∀ d ∈ edits, e.stop ≤ d.start := by
      intro d hd
      rcases hseparate.1 d hd with hle | hle
      · exact hle
      · -- then `d` is an insertion at the start of `e`
        have hd' := (hvalid d (List.mem_cons_of_mem _ hd)).1
        have hse := hsorted.1 d hd
        have := hfirst.1 d hd (by omega)
        omega
    rw [List.reverse_cons, runSteps_append_ok (by rw [hlater]), hlater]
    have hstep := applyTextEdit_simultaneous source (hvalid e List.mem_cons_self) hbehind
    rw [runSteps_cons_ok (by rw [hstep]), hstep]
    rfl

theorem TextEdit.Separate.symm {a b : TextEdit} (h : a.Separate b) : b.Separate a := Or.symm h

theorem applyTextEdits_eq (source : SourceId) (text : List Char) (edits : List TextEdit) :
    applyTextEdits source text edits =
      runSteps (applyTextEdit source) text (sortByKey TextEdit.start edits).reverse := rfl

theorem applyTextEdits_simultaneous (source : SourceId) {text : List Char}
    (hvalid : ∀ e ∈ edits, e.ValidIn text) (hseparate : edits.Pairwise TextEdit.Separate)
    (hfirst : edits.Pairwise TextEdit.InsertsFirst) :
    applyTextEdits source text edits = (simultaneous edits text, none) := by
  have hperm : (sortByKey TextEdit.start edits).Perm edits := sortByKey_perm edits
  have hseparate' : (sortByKey TextEdit.start edits).Pairwise TextEdit.Separate :=
    (hperm.pairwise_iff TextEdit.Separate.symm).mpr hseparate
  have hfirst' : (sortByKey TextEdit.start edits).Pairwise TextEdit.InsertsFirst := by
    refine pairwise_sameKey_iff.mpr fun start => ?_
    rw [withKey_sortByKey]
    exact pairwise_sameKey_iff.mp hfirst start
  rw [applyTextEdits_eq, runSteps_simultaneous source (sortByKey_pairwise edits)
    (fun e he => hvalid e (mem_sortByKey.mp he)) hseparate' hfirst']
  congr 1
  exact simultaneousFrom_congr (fun e => mem_sortByKey) (fun start => withKey_sortByKey start edits)
    0 text

theorem applyTextEdits_congr (source : SourceId) (text : List Char) {edits edits' : List TextEdit}
    (h : ∀ start, withKey TextEdit.start start edits' = withKey TextEdit.start start edits) :
    applyTextEdits source text edits' = applyTextEdits source text edits := by
  rw [applyTextEdits_eq, applyTextEdits_eq, sortByKey_congr h]

/-- The last edit of the greatest start is made first, the others in what it leaves. -/
theorem applyTextEdits_last (source : SourceId) (text : List Char) {front back : List TextEdit}
    (hfront : ∀ a ∈ front, a.start ≤ e.start) (hback : ∀ b ∈ back, b.start < e.start) :
    applyTextEdits source text (front ++ e :: back) =
      match applyTextEdit source text e with
      | (text', none) => applyTextEdits source text' (front ++ back)
      | (text', some error) => (text', some error) := by
  rw [applyTextEdits_eq, sortByKey_last hfront hback, List.reverse_append, List.reverse_singleton,
    List.singleton_append]
  cases h : (applyTextEdit source text e).2 with
  | none =>
    have hstep : applyTextEdit source text e = ((applyTextEdit source text e).1, none) := by
      rw [← h]
    rw [runSteps_cons_ok h, hstep]
    rfl
  | some error =>
    have hstep : applyTextEdit source text e = ((applyTextEdit source text e).1, some error) := by
      rw [← h]
    rw [runSteps_cons_error h, hstep]

/-- Edits with separate ranges, insertions first, are made at once, and the list may be reordered.
Overlapping ranges are not looked for: an edit counts in the text the later ones have left. -/
theorem applyTextEdits_spec (source : SourceId) {text : List Char} {edits : List TextEdit}
    (hvalid : ∀ e ∈ edits, e.ValidIn text) (hseparate : edits.Pairwise TextEdit.Separate)
    (hfirst : edits.Pairwise TextEdit.InsertsFirst) :
    (applyTextEdits source text edits = (simultaneous edits text, none) ∧
      ∀ edits', (∀ start, withKey TextEdit.start start edits' = withKey TextEdit.start start edits) →
        applyTextEdits source text edits' = (simultaneous edits text, none)) ∧
    ∀ (text : List Char) (front back : List TextEdit) (e : TextEdit),
      (∀ a ∈ front, a.start ≤ e.start) → (∀ b ∈ back, b.start < e.start) →
        applyTextEdits source text (front ++ e :: back) =
          match applyTextEdit source text e with
          | (text', none) => applyTextEdits source text' (front ++ back)
          | (text', some error) => (text', some error) := by
  have hall := applyTextEdits_simultaneous source hvalid hseparate hfirst
  refine ⟨⟨hall, fun edits' h => ?_⟩, fun text front back e => applyTextEdits_last source text⟩
  rw [applyTextEdits_congr source text h, hall]

/-- An insertion, the replacement that starts there and a later insertion. -/
theorem applyTextEdits_spec_borders :
    applyTextEdits 0 ['a', 'b', 'c', 'd'] [⟨3, 3, ['z']⟩, ⟨1, 1, ['x']⟩, ⟨1, 3, ['y']⟩] =
      (['a', 'x', 'y', 'z', 'd'], none) :=
  (@applyTextEdits_spec 0 ['a', 'b', 'c', 'd'] [⟨3, 3, ['z']⟩, ⟨1, 1, ['x']⟩, ⟨1, 3, ['y']⟩]
    (by decide) (by decide) (by decide)).1.1

/-- An insertion listed after the replacement that starts there is lost in part, and overlapping
ranges are not rejected. -/
theorem applyTextEdits_not_simultaneous :
    (¬ ∀ (text : List Char) (edits : List TextEdit), (∀ e ∈ edits, e.ValidIn text) →
      edits.Pairwise TextEdit.Separate →
        applyTextEdits 0 text edits = (simultaneous edits text, none)) ∧
    ¬ ∀ (text : List Char) (edits : List TextEdit), (∀ e ∈ edits, e.ValidIn text) →
      ¬ edits.Pairwise TextEdit.Separate →
        (applyTextEdits 0 text edits).1 = text ∧ (applyTextEdits 0 text edits).2 ≠ none := by
  constructor
  · intro h
    have hlost := h ['a', 'b', 'c', 'd'] [⟨1, 3, ['x']⟩, ⟨1, 1, ['y', 'z']⟩] (by decide) (by decide)
    revert hlost
    decide
  · intro h
    have haccepted := h ['a', 'b', 'c', 'd'] [⟨0, 2, ['x', 'y', 'z']⟩, ⟨1, 3, []⟩] (by decide)
      (by decide)
    revert haccepted
    decide

end EtasFrontend.Session
