import Mathlib.Data.List.Basic
import Mathlib.Data.List.Flatten

/-! Sequences of blocks: when a concatenation of encoded values determines the values. -/
namespace EtasFrontend.Lib
variable {α β : Type}

/-- The sequence is empty, or its first element starts no block. -/
def Ends (starts : β → Prop) (l : List β) : Prop := ∀ b ∈ l.head?, ¬ starts b

theorem ends_nil {starts : β → Prop} : Ends starts [] := by simp [Ends]

section
variable (enc : α → List β) (starts : β → Prop) (valid : α → Prop)

/-- Blocks that can be read off the front of a sequence are read off one after the other. -/
theorem flatMap_inj (hstart : ∀ a, valid a → ∃ b rest, enc a = b :: rest ∧ starts b)
    (hcode : ∀ a a' (l l' : List α) (s s' : List β), valid a → valid a' →
      (∀ x ∈ l, valid x) → (∀ x ∈ l', valid x) →
      Ends starts s → Ends starts s' →
      enc a ++ (l.flatMap enc ++ s) = enc a' ++ (l'.flatMap enc ++ s') →
      a = a' ∧ l.flatMap enc ++ s = l'.flatMap enc ++ s')
    {l l' : List α} (hl : ∀ a ∈ l, valid a) (hl' : ∀ a ∈ l', valid a) {s s' : List β}
    (hs : Ends starts s) (hs' : Ends starts s')
    (h : l.flatMap enc ++ s = l'.flatMap enc ++ s') : l = l' ∧ s = s' := by
  have hempty : ∀ {a l t t'}, valid a → Ends starts t → t ≠ enc a ++ l ++ t' := by
    intro a l t t' ha ht heq
    obtain ⟨b, rest, hb, hstarts⟩ := hstart a ha
    rw [hb] at heq
    exact ht b (by simp [heq]) hstarts
  induction l generalizing l' with
  | nil =>
    cases l' with
    | nil => exact ⟨rfl, h⟩
    | cons a' l' =>
      rw [List.flatMap_cons, List.flatMap_nil, List.nil_append] at h
      exact absurd h (hempty (hl' a' List.mem_cons_self) hs)
  | cons a l ih =>
    rw [List.forall_mem_cons] at hl
    cases l' with
    | nil =>
      rw [List.flatMap_cons, List.flatMap_nil, List.nil_append] at h
      exact absurd h.symm (hempty hl.1 hs')
    | cons a' l' =>
      rw [List.forall_mem_cons] at hl'
      rw [List.flatMap_cons, List.flatMap_cons, List.append_assoc, List.append_assoc] at h
      obtain ⟨rfl, hrest⟩ := hcode a a' l l' s s' hl.1 hl'.1 hl.2 hl'.2 hs hs' h
      obtain ⟨rfl, rfl⟩ := ih hl.2 hl'.2 hrest
      exact ⟨rfl, rfl⟩

/-- Blocks of one length are read off whatever follows. -/
theorem flatMap_inj_of_length {n : ℕ} (hlength : ∀ a, (enc a).length = n)
    (hinj : ∀ a a', valid a → valid a' → enc a = enc a' → a = a')
    (hstart : ∀ a, valid a → ∃ b rest, enc a = b :: rest ∧ starts b)
    {l l' : List α} (hl : ∀ a ∈ l, valid a) (hl' : ∀ a ∈ l', valid a) {s s' : List β}
    (hs : Ends starts s) (hs' : Ends starts s')
    (h : l.flatMap enc ++ s = l'.flatMap enc ++ s') : l = l' ∧ s = s' := by
  refine flatMap_inj enc starts valid hstart ?_ hl hl' hs hs' h
  intro a a' l l' s s' ha ha' _ _ _ _ heq
  obtain ⟨hblock, hrest⟩ := List.append_inj heq ((hlength a).trans (hlength a').symm)
  exact ⟨hinj a a' ha ha' hblock, hrest⟩

end

/-- A run of elements with a property, followed by one without it, is read off. -/
theorem append_inj_of_all {p : β → Bool} {a b s t : List β} (ha : ∀ x ∈ a, p x = true)
    (hb : ∀ x ∈ b, p x = true) (hs : ∀ x ∈ s.head?, p x = false)
    (ht : ∀ x ∈ t.head?, p x = false) (h : a ++ s = b ++ t) : a = b ∧ s = t := by
  have htake : ∀ {c u : List β}, (∀ x ∈ c, p x = true) → (∀ x ∈ u.head?, p x = false) →
      (c ++ u).takeWhile p = c := by
    intro c u hc hu
    rw [List.takeWhile_append_of_pos hc]
    cases u with
    | nil => simp
    | cons x u => simp [hu x rfl]
  have heq : a = b := by rw [← htake ha hs, h, htake hb ht]
  subst heq
  exact ⟨rfl, List.append_cancel_left h⟩

end EtasFrontend.Lib
