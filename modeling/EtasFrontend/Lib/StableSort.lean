import Mathlib.Data.List.Sort

/-! Sorting by a key. The sort is stable, and what a stable sort gives depends on the order of the
elements of each key alone. -/
namespace EtasFrontend.Lib
variable {α κ : Type*} [LinearOrder κ] (key : α → κ)

/-- The elements in the order of their keys. -/
def sortByKey (l : List α) : List α := l.insertionSort fun a b => key a ≤ key b

/-- The elements of one key, in their order. -/
def withKey (k : κ) (l : List α) : List α := l.filter fun a => key a = k

variable {key}

theorem mem_withKey {k : κ} {l : List α} {a : α} : a ∈ withKey key k l ↔ a ∈ l ∧ key a = k := by
  simp [withKey]

theorem sortByKey_perm (l : List α) : (sortByKey key l).Perm l := List.perm_insertionSort _ l

@[simp] theorem mem_sortByKey {l : List α} {a : α} : a ∈ sortByKey key l ↔ a ∈ l :=
  (sortByKey_perm l).mem_iff

theorem sortByKey_pairwise (l : List α) : (sortByKey key l).Pairwise fun a b => key a ≤ key b := by
  have : IsTrans α fun a b => key a ≤ key b := ⟨fun _ _ _ => le_trans⟩
  have : Std.Total fun a b => key a ≤ key b := ⟨fun a b => le_total (key a) (key b)⟩
  exact List.pairwise_insertionSort _ l

private theorem withKey_orderedInsert (k : κ) (a : α) (l : List α) :
    withKey key k (l.orderedInsert (fun a b => key a ≤ key b) a) = withKey key k (a :: l) := by
  induction l with
  | nil => rfl
  | cons b l ih =>
    rw [List.orderedInsert_cons]
    by_cases hab : key a ≤ key b
    · rw [if_pos hab]
    · rw [if_neg hab]
      simp only [withKey, List.filter_cons, decide_eq_true_eq] at ih ⊢
      by_cases hb : key b = k
      · have ha : key a ≠ k := fun ha => hab (ha.trans hb.symm).le
        simp only [hb, if_true, if_neg ha] at ih ⊢
        rw [ih]
      · rw [if_neg hb, if_neg hb, ih]

/-- The sort is stable. -/
theorem withKey_sortByKey (k : κ) (l : List α) :
    withKey key k (sortByKey key l) = withKey key k l := by
  induction l with
  | nil => rfl
  | cons a l ih =>
    have hsort : sortByKey key (a :: l) =
        (sortByKey key l).orderedInsert (fun a b => key a ≤ key b) a := rfl
    rw [hsort, withKey_orderedInsert]
    simp only [withKey, List.filter_cons] at ih ⊢
    rw [ih]

/-- Two sorted lists with the same elements of each key, in the same order, are the same. -/
theorem eq_of_sorted_of_withKey {l l' : List α} (hl : l.Pairwise fun a b => key a ≤ key b)
    (hl' : l'.Pairwise fun a b => key a ≤ key b) (h : ∀ k, withKey key k l = withKey key k l') :
    l = l' := by
  induction l generalizing l' with
  | nil =>
    cases l' with
    | nil => rfl
    | cons b l' =>
      have hb : b ∈ withKey key (key b) ([] : List α) := by
        rw [h]
        exact mem_withKey.mpr ⟨List.mem_cons_self, rfl⟩
      cases hb
  | cons a l ih =>
    cases l' with
    | nil =>
      have ha : a ∈ withKey key (key a) ([] : List α) := by
        rw [← h]
        exact mem_withKey.mpr ⟨List.mem_cons_self, rfl⟩
      cases ha
    | cons b l' =>
      have ha : a ∈ b :: l' := by
        have ha : a ∈ withKey key (key a) (b :: l') := by
          rw [← h]
          exact mem_withKey.mpr ⟨List.mem_cons_self, rfl⟩
        exact (mem_withKey.mp ha).1
      have hb : b ∈ a :: l := by
        have hb : b ∈ withKey key (key b) (a :: l) := by
          rw [h]
          exact mem_withKey.mpr ⟨List.mem_cons_self, rfl⟩
        exact (mem_withKey.mp hb).1
      have hle : key b ≤ key a := by
        rcases List.mem_cons.mp ha with rfl | ha
        · exact le_rfl
        · exact List.rel_of_pairwise_cons hl' ha
      have hge : key a ≤ key b := by
        rcases List.mem_cons.mp hb with rfl | hb
        · exact le_rfl
        · exact List.rel_of_pairwise_cons hl hb
      have hkey : key a = key b := le_antisymm hge hle
      have hfirst := h (key a)
      simp only [withKey, List.filter_cons, decide_true, if_true, hkey] at hfirst
      obtain ⟨rfl, -⟩ := List.cons.inj hfirst
      have hrest : l = l' := by
        refine ih (List.Pairwise.of_cons hl) (List.Pairwise.of_cons hl') fun k => ?_
        have hk := h k
        simp only [withKey, List.filter_cons] at hk ⊢
        split at hk
        · exact (List.cons.inj hk).2
        · exact hk
      rw [hrest]

/-- A relation between elements of one key, the earlier one first. -/
theorem pairwise_sameKey_iff {R : α → α → Prop} {l : List α} :
    (l.Pairwise fun a b => key a = key b → R a b) ↔ ∀ k, (withKey key k l).Pairwise R := by
  simp only [withKey, List.pairwise_filter, decide_eq_true_eq]
  constructor
  · intro h k
    exact h.imp fun hR ha hb => hR (ha.trans hb.symm)
  · intro h
    rw [List.pairwise_iff_forall_sublist]
    intro a b hab hkey
    exact List.pairwise_iff_forall_sublist.mp (h (key b)) hab hkey rfl

theorem sortByKey_congr {l l' : List α} (h : ∀ k, withKey key k l = withKey key k l') :
    sortByKey key l = sortByKey key l' :=
  eq_of_sorted_of_withKey (sortByKey_pairwise l) (sortByKey_pairwise l') fun k => by
    rw [withKey_sortByKey, withKey_sortByKey, h]

/-- The last of the elements with the greatest key comes last. -/
theorem sortByKey_last {front back : List α} {a : α} (hfront : ∀ b ∈ front, key b ≤ key a)
    (hback : ∀ b ∈ back, key b < key a) :
    sortByKey key (front ++ a :: back) = sortByKey key (front ++ back) ++ [a] := by
  refine eq_of_sorted_of_withKey (sortByKey_pairwise _) ?_ fun k => ?_
  · refine List.pairwise_append.mpr ⟨sortByKey_pairwise _, List.pairwise_singleton .., ?_⟩
    intro b hb c hc
    rw [List.mem_singleton.mp hc]
    rcases List.mem_append.mp (mem_sortByKey.mp hb) with hb | hb
    · exact hfront b hb
    · exact (hback b hb).le
  · rw [withKey_sortByKey]
    have happend (l l' : List α) : withKey key k (l ++ l') = withKey key k l ++ withKey key k l' :=
      List.filter_append ..
    rw [happend, happend, withKey_sortByKey, happend]
    by_cases hk : key a = k
    · have hnone : withKey key k back = [] :=
        List.filter_eq_nil_iff.mpr fun b hb => by simpa [← hk] using (hback b hb).ne
      have hcons : withKey key k (a :: back) = a :: withKey key k back := by simp [withKey, hk]
      rw [hcons, hnone, List.append_nil]
      simp [withKey, hk]
    · simp [withKey, hk]

end EtasFrontend.Lib
