import Mathlib.Data.List.Nodup

/-! Neighbours in a list that are taken together, no element twice. -/
namespace EtasFrontend.Lib
variable {α : Type*}

inductive AdjacentPairs : List α → List (α × α) → Prop
  | nil : AdjacentPairs [] []
  | keep (a : α) {l : List α} {pairs : List (α × α)} (h : AdjacentPairs l pairs) :
      AdjacentPairs (a :: l) pairs
  | pair (a b : α) {l : List α} {pairs : List (α × α)} (h : AdjacentPairs l pairs) :
      AdjacentPairs (a :: b :: l) ((a, b) :: pairs)

/-- The elements of the pairs. -/
def members (pairs : List (α × α)) : List α := pairs.flatMap fun p => [p.1, p.2]

@[simp] theorem members_cons (p : α × α) (pairs : List (α × α)) :
    members (p :: pairs) = p.1 :: p.2 :: members pairs := rfl

variable {pairs : List (α × α)}

theorem fst_mem_members {p : α × α} (h : p ∈ pairs) :
    p.1 ∈ members pairs := List.mem_flatMap.mpr ⟨p, h, List.mem_cons_self⟩

theorem snd_mem_members {p : α × α} (h : p ∈ pairs) : p.2 ∈ members pairs :=
  List.mem_flatMap.mpr ⟨p, h, List.mem_cons_of_mem _ List.mem_cons_self⟩

theorem map_snd_sublist (pairs : List (α × α)) : (pairs.map Prod.snd).Sublist (members pairs) := by
  induction pairs with
  | nil => exact .slnil
  | cons p pairs ih => exact (ih.cons_cons p.2).cons p.1

/-- Different pairs have no element in common. -/
theorem members_nodup (h : (members pairs).Nodup) {p q : α × α} (hp : p ∈ pairs) (hq : q ∈ pairs) :
    (p.1 = q.1 → p = q) ∧ (p.2 = q.2 → p = q) ∧ p.1 ≠ q.2 := by
  induction pairs with
  | nil => cases hp
  | cons r pairs ih =>
    simp only [members_cons, List.nodup_cons, List.mem_cons, not_or] at h
    obtain ⟨⟨hr, hfst⟩, hsnd, hpairs⟩ := h
    rcases List.mem_cons.mp hp with rfl | hp' <;> rcases List.mem_cons.mp hq with rfl | hq'
    · exact ⟨fun _ => rfl, fun _ => rfl, hr⟩
    · exact ⟨fun h => absurd (h ▸ fst_mem_members hq') hfst,
        fun h => absurd (h ▸ snd_mem_members hq') hsnd, fun h => hfst (h ▸ snd_mem_members hq')⟩
    · exact ⟨fun h => absurd (h ▸ fst_mem_members hp') hfst,
        fun h => absurd (h ▸ snd_mem_members hp') hsnd, fun h => hsnd (h ▸ fst_mem_members hp')⟩
    · exact ih hpairs hp' hq'

namespace AdjacentPairs
variable {l : List α} {pairs : List (α × α)}

theorem sublist (h : AdjacentPairs l pairs) : (members pairs).Sublist l := by
  induction h with
  | nil => exact .slnil
  | keep a _ ih => exact ih.cons a
  | pair a b _ ih => exact (ih.cons_cons b).cons_cons a

theorem nodup (h : AdjacentPairs l pairs) (hl : l.Nodup) : (members pairs).Nodup :=
  hl.sublist h.sublist

variable [DecidableEq α] {m : Type → Type} [Monad m] [LawfulMonad m]

/-- A run where the first of each pair does the work of both and the second is left out. -/
theorem forM_contract (h : AdjacentPairs l pairs) (hl : l.Nodup) (run run' : α → m PUnit)
    (hkeep : ∀ a ∈ l, a ∉ members pairs → run a = run' a)
    (hpair : ∀ p ∈ pairs, (do run p.1; run p.2) = run' p.1) :
    l.forM run = (l.filter fun a => a ∉ pairs.map Prod.snd).forM run' := by
  have hmembers {a : α} {pairs : List (α × α)} (ha : a ∉ members pairs) :
      a ∉ pairs.map Prod.snd := by
    intro hmem
    obtain ⟨p, hp, rfl⟩ := List.mem_map.mp hmem
    exact ha (snd_mem_members hp)
  induction h with
  | nil => rfl
  | @keep a l pairs h ih =>
    rw [List.nodup_cons] at hl
    have ha : a ∉ members pairs := fun hmem => hl.1 (h.sublist.subset hmem)
    have hrest := ih hl.2 (fun b hb => hkeep b (List.mem_cons_of_mem _ hb)) hpair
    rw [List.filter_cons_of_pos (by simpa using hmembers ha)]
    change (run a >>= fun _ => l.forM run) = (run' a >>= fun _ => List.forM _ run')
    rw [hkeep a List.mem_cons_self ha, hrest]
  | @pair a b l pairs h ih =>
    simp only [List.nodup_cons, List.mem_cons, not_or] at hl
    obtain ⟨⟨hab, hal⟩, hbl, hl⟩ := hl
    have hrest := ih hl
      (fun c hc hmem => hkeep c (List.mem_cons_of_mem _ (List.mem_cons_of_mem _ hc)) (by
        simp only [members_cons, List.mem_cons, not_or]
        exact ⟨fun heq => hal (heq ▸ hc), fun heq => hbl (heq ▸ hc), hmem⟩))
      fun p hp => hpair p (List.mem_cons_of_mem _ hp)
    have ha : a ∉ ((a, b) :: pairs).map Prod.snd := by
      simp only [List.map_cons, List.mem_cons, not_or]
      exact ⟨hab, hmembers fun hmem => hal (h.sublist.subset hmem)⟩
    have hfilter : (l.filter fun c => c ∉ ((a, b) :: pairs).map Prod.snd) =
        l.filter fun c => c ∉ pairs.map Prod.snd := by
      refine List.filter_congr fun c hc => ?_
      have hcb : c ≠ b := fun heq => hbl (heq ▸ hc)
      simp [hcb]
    rw [List.filter_cons_of_pos (by simpa using ha), List.filter_cons_of_neg (by simp), hfilter]
    change (run a >>= fun _ => run b >>= fun _ => l.forM run) =
      (run' a >>= fun _ => List.forM _ run')
    rw [← hrest, ← hpair (a, b) List.mem_cons_self, bind_assoc]

end AdjacentPairs
end EtasFrontend.Lib
