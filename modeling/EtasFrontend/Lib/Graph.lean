import Mathlib.Data.Set.Finite.Basic
import Mathlib.Order.WellFounded

/-! Reachability and acyclicity of graphs given by a successor relation. -/
namespace EtasFrontend.Lib
open Relation

variable {α : Type*}

/-- No node reaches itself in one step or more. -/
def Acyclic (r : α → α → Prop) : Prop := ∀ a, ¬ TransGen r a a

theorem Acyclic.mono {r s : α → α → Prop} (h : ∀ a b, r a b → s a b) (hs : Acyclic s) : Acyclic r :=
  fun a ha => hs a (TransGen.mono h a a ha)

variable {r : α → α → Prop} {s : Set α}

private theorem Acyclic.wellFounded_step (h : Acyclic r) (hs : s.Finite)
    (hr : ∀ a b, r a b → a ∈ s) : WellFounded fun b a => r a b := by
  have : Finite s := hs
  have hwf : WellFounded fun b a : s => TransGen r a b := by
    have : IsTrans s fun b a => TransGen r a b := ⟨fun _ _ _ hab hbc => hbc.trans hab⟩
    have : Std.Irrefl fun b a : s => TransGen r a b := ⟨fun a => h a⟩
    exact Finite.wellFounded_of_trans_of_irrefl _
  have hin : ∀ a : s, Acc (fun b a => r a b) a.1 := by
    intro a
    induction a using hwf.induction with
    | _ a ih =>
      refine ⟨_, fun b hb => ?_⟩
      by_cases hbs : b ∈ s
      · exact ih ⟨b, hbs⟩ (.single hb)
      · exact ⟨_, fun c hc => absurd (hr b c hc) hbs⟩
  refine ⟨fun a => ⟨_, fun b hb => ?_⟩⟩
  by_cases hbs : b ∈ s
  · exact hin ⟨b, hbs⟩
  · exact ⟨_, fun c hc => absurd (hr b c hc) hbs⟩

/-- With finitely many sources an acyclic graph can be descended by induction, along paths. -/
theorem Acyclic.wellFounded (h : Acyclic r) (hs : s.Finite)
    (hr : ∀ a b, r a b → a ∈ s) : WellFounded fun b a => TransGen r a b :=
  Subrelation.wf (fun hba => transGen_swap.mpr hba) (h.wellFounded_step hs hr).transGen

/-- Adding edges from `s` to `t` lengthens a path only through `t`: the part before the first
new edge ends in `s`, the part after the last one starts at `t`. -/
theorem reflTransGen_of_added_edges {r r' : α → α → Prop} {t : α}
    (h : ∀ a b, r' a b → r a b ∨ (a ∈ s ∧ b = t)) {x y : α} (hxy : ReflTransGen r' x y) :
    ReflTransGen r x y ∨ ((∃ a ∈ s, ReflTransGen r x a) ∧ ReflTransGen r t y) := by
  induction hxy with
  | refl => exact Or.inl .refl
  | tail _ hbc ih =>
    rcases h _ _ hbc with hr | ⟨hs, rfl⟩
    · rcases ih with ih | ⟨ha, ih⟩
      · exact Or.inl (ih.tail hr)
      · exact Or.inr ⟨ha, ih.tail hr⟩
    · rcases ih with ih | ⟨ha, _⟩
      · exact Or.inr ⟨⟨_, hs, ih⟩, .refl⟩
      · exact Or.inr ⟨ha, .refl⟩

/-- A path of edges of two kinds is one of the first kind, or passes an edge of the second. -/
theorem transGen_or_passes {r s e : α → α → Prop} (h : ∀ a b, e a b → r a b ∨ s a b) {x y : α}
    (hxy : TransGen e x y) :
    TransGen r x y ∨ ∃ b c, ReflTransGen e x b ∧ s b c ∧ ReflTransGen e c y := by
  induction hxy with
  | single he => exact (h _ _ he).imp .single fun hs => ⟨_, _, .refl, hs, .refl⟩
  | tail hx he ih =>
    rcases ih with ih | ⟨b, c, hb, hbc, hc⟩
    · exact (h _ _ he).imp ih.tail fun hs => ⟨_, _, hx.to_reflTransGen, hs, .refl⟩
    · exact Or.inr ⟨b, c, hb, hbc, hc.tail he⟩

/-- The node lies on a cycle or leads into one. -/
def MeetsCycle (r : α → α → Prop) (a : α) : Prop := ∃ c, ReflTransGen r a c ∧ TransGen r c c

theorem MeetsCycle.head {a b : α} (hab : r a b) (h : MeetsCycle r b) : MeetsCycle r a := by
  obtain ⟨c, hbc, hc⟩ := h
  exact ⟨c, hbc.head hab, hc⟩

/-- A node from which every descent ends does not meet a cycle. -/
theorem not_meetsCycle_of_acc {a : α} (h : Acc (fun b a => r a b) a) : ¬ MeetsCycle r a := by
  induction h with
  | intro a _ ih =>
    rintro ⟨c, hac, hc⟩
    have hstep : ∃ b, r a b ∧ MeetsCycle r b := by
      rcases hac.cases_head with rfl | ⟨b, hab, hbc⟩
      · obtain ⟨b, hab, hba⟩ := TransGen.head'_iff.mp hc
        exact ⟨b, hab, a, hba, hc⟩
      · exact ⟨b, hab, c, hbc, hc⟩
    obtain ⟨b, hab, hb⟩ := hstep
    exact ih b hab hb

/-- Away from the cycles of a graph with finitely many sources, every descent ends. -/
theorem acc_of_not_meetsCycle (hs : s.Finite) (hr : ∀ a b, r a b → a ∈ s) {a : α}
    (h : ¬ MeetsCycle r a) : Acc (fun b a => r a b) a := by
  have hac : Acyclic fun a b => r a b ∧ ¬ MeetsCycle r a := by
    intro c hc
    obtain ⟨b, hcb, -⟩ := TransGen.head'_iff.mp hc
    exact hcb.2 ⟨c, .refl, TransGen.mono (fun _ _ h => h.1) c c hc⟩
  have hwf := hac.wellFounded hs fun a b hab => hr a b hab.1
  induction a using hwf.induction with
  | _ a ih =>
    constructor
    intro b hab
    exact ih b (.single ⟨hab, h⟩) fun hb => h (hb.head hab)

/-- Every node of the list comes after all its successors. -/
inductive Topological (r : α → α → Prop) : List α → Prop
  | nil : Topological r []
  | snoc {l : List α} {a : α} (h : Topological r l) (ha : ∀ b, r a b → b ∈ l) :
      Topological r (l ++ [a])

variable {l : List α} (h : Topological r l)
include h

theorem Topological.acc {a : α} (ha : a ∈ l) : Acc (fun b a => r a b) a := by
  induction h generalizing a with
  | nil => simp at ha
  | snoc _ hs ih =>
    rcases List.mem_append.mp ha with ha | ha
    · exact ih ha
    · rw [List.mem_singleton.mp ha]
      exact ⟨_, fun b hb => ih (hs b hb)⟩

theorem Topological.mem_of_rel {a b : α} (ha : a ∈ l) (hab : r a b) : b ∈ l := by
  induction h with
  | nil => simp at ha
  | snoc _ hs ih =>
    rcases List.mem_append.mp ha with ha | ha
    · exact List.mem_append_left _ (ih ha)
    · rw [List.mem_singleton.mp ha] at hab
      exact List.mem_append_left _ (hs b hab)

theorem Topological.filter (p : α → Bool) :
    Topological (fun a b => r a b ∧ p b = true) (l.filter p) := by
  induction h with
  | nil => exact .nil
  | @snoc l a _ hs ih =>
    rw [List.filter_append]
    by_cases ha : p a = true
    · rw [List.filter_cons_of_pos ha, List.filter_nil]
      exact ih.snoc fun b hb => List.mem_filter.mpr ⟨hs b hb.1, hb.2⟩
    · rw [List.filter_cons_of_neg ha, List.filter_nil, List.append_nil]
      exact ih

theorem Topological.idxOf_lt [DecidableEq α] (hn : l.Nodup)
    {a b : α} (ha : a ∈ l) (hab : r a b) :
    l.idxOf b < l.idxOf a := by
  induction h with
  | nil => simp at ha
  | @snoc l c ht hs ih =>
    obtain ⟨hl, -, hd⟩ := List.nodup_append.mp hn
    by_cases hal : a ∈ l
    · rw [List.idxOf_append_of_mem hal, List.idxOf_append_of_mem (ht.mem_of_rel hal hab)]
      exact ih hl hal
    · obtain rfl : a = c := by simpa [hal] using ha
      rw [List.idxOf_append_of_mem (hs b hab), List.idxOf_append_of_notMem hal]
      have := List.idxOf_lt_length_of_mem (hs b hab)
      omega

end EtasFrontend.Lib
