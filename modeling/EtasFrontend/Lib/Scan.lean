import EtasFrontend.Lib.Words

/-! Scanning the words of a language with a step that may reject: where a set of states can go, and
whether some word is rejected. -/
namespace EtasFrontend.Lib
open Computability

variable {α σ : Type} {step : σ → α → Option σ} {l m : Language α} {S S' R R' : Set σ}

/-- No word of `l` is rejected from `S`, and all end in `S'`. -/
def Covers (step : σ → α → Option σ) (l : Language α) (S S' : Set σ) : Prop :=
  ∀ s ∈ S, ∀ w ∈ l, ∃ s' ∈ S', w.foldlM step s = some s'

/-- Every state of `S'` is where some word of `l` ends from `S`. -/
def Reaches (step : σ → α → Option σ) (l : Language α) (S S' : Set σ) : Prop :=
  ∀ s' ∈ S', ∃ s ∈ S, ∃ w ∈ l, w.foldlM step s = some s'

/-- Some word of `l` is rejected from `S`. -/
def Rejects (step : σ → α → Option σ) (l : Language α) (S : Set σ) : Prop :=
  ∃ s ∈ S, ∃ w ∈ l, w.foldlM step s = none

theorem foldlM_append_of_some {s s' : σ} {u : List α} (h : u.foldlM step s = some s') (v : List α) :
    (u ++ v).foldlM step s = v.foldlM step s' := by
  rw [List.foldlM_append, h]
  rfl

theorem foldlM_append_of_none {s : σ} {u : List α} (h : u.foldlM step s = none) (v : List α) :
    (u ++ v).foldlM step s = none := by
  rw [List.foldlM_append, h]
  rfl

/-! Words that change nothing. -/

theorem foldlM_still {A : Set α} (h : ∀ x ∈ A, ∀ s, step s x = some s) {w : List α}
    (hw : w ∈ wordsOver A) (s : σ) : w.foldlM step s = some s := by
  induction w with
  | nil => rfl
  | cons x w ih =>
    rw [List.foldlM_cons, h x (hw x List.mem_cons_self) s]
    exact ih fun y hy => hw y (List.mem_cons_of_mem _ hy)

theorem Covers.still {A : Set α} (h : ∀ x ∈ A, ∀ s, step s x = some s) (hl : l ≤ wordsOver A)
    (S : Set σ) : Covers step l S S := by
  intro s hs w hw
  exact ⟨s, hs, foldlM_still h (hl hw) s⟩

theorem Reaches.still {A : Set α} (h : ∀ x ∈ A, ∀ s, step s x = some s) (hl : l ≤ wordsOver A)
    {w : List α} (hw : w ∈ l) (S : Set σ) : Reaches step l S S := by
  intro s hs
  exact ⟨s, hs, w, hw, foldlM_still h (hl hw) s⟩

theorem Covers.mono (h : Covers step l S S') (hS : R ⊆ S) (hS' : S' ⊆ R') : Covers step l R R' := by
  intro s hs w hw
  obtain ⟨s', hs', hrun⟩ := h s (hS hs) w hw
  exact ⟨s', hS' hs', hrun⟩

theorem Covers.union (h : Covers step l S S') (h' : Covers step l R S') :
    Covers step l (S ∪ R) S' := by
  rintro s (hs | hs)
  · exact h s hs
  · exact h' s hs

theorem Covers.add (h : Covers step l S S') (h' : Covers step m S S') :
    Covers step (l + m) S S' := by
  rintro s hs w (hw | hw)
  · exact h s hs w hw
  · exact h' s hs w hw

theorem Covers.one (S : Set σ) : Covers step 1 S S := by
  intro s hs w hw
  cases hw
  exact ⟨s, hs, rfl⟩

theorem Covers.mul (h : Covers step l S R) (h' : Covers step m R S') :
    Covers step (l * m) S S' := by
  rintro s hs w ⟨u, hu, v, hv, rfl⟩
  obtain ⟨r, hr, hrun⟩ := h s hs u hu
  obtain ⟨s', hs', hrun'⟩ := h' r hr v hv
  exact ⟨s', hs', (foldlM_append_of_some hrun v).trans hrun'⟩

/-- A set the words of `l` do not leave is not left by their repetitions. -/
theorem Covers.kstar (h : Covers step l R R) : Covers step l∗ R R := by
  intro s hs w hw
  obtain ⟨words, rfl, hwords⟩ := Language.mem_kstar.mp hw
  clear hw
  induction words generalizing s with
  | nil => exact ⟨s, hs, rfl⟩
  | cons u words ih =>
    obtain ⟨r, hr, hrun⟩ := h s hs u (hwords u List.mem_cons_self)
    have hrest := fun v hv => hwords v (List.mem_cons_of_mem _ hv)
    obtain ⟨s', hs', hrun'⟩ := ih r hr hrest
    exact ⟨s', hs', (foldlM_append_of_some hrun words.flatten).trans hrun'⟩

theorem Reaches.empty (step : σ → α → Option σ) (l : Language α) (S : Set σ) :
    Reaches step l S ∅ := nofun

theorem Reaches.union (h : Reaches step l S S') (h' : Reaches step l S R) :
    Reaches step l S (S' ∪ R) := by
  rintro s (hs | hs)
  · exact h s hs
  · exact h' s hs

theorem Reaches.mono_lang (h : Reaches step l S S') (hl : l ≤ m) : Reaches step m S S' := by
  intro s' hs'
  obtain ⟨s, hs, w, hw, hrun⟩ := h s' hs'
  exact ⟨s, hs, w, hl hw, hrun⟩

theorem Reaches.subset (h : Reaches step l S S') (hR : R ⊆ S') : Reaches step l S R :=
  fun s hs => h s (hR hs)

theorem Reaches.one (S : Set σ) : Reaches step 1 S S := fun s hs => ⟨s, hs, [], rfl, rfl⟩

theorem Reaches.mul (h : Reaches step l S R) (h' : Reaches step m R S') :
    Reaches step (l * m) S S' := by
  intro s' hs'
  obtain ⟨r, hr, v, hv, hrun'⟩ := h' s' hs'
  obtain ⟨s, hs, u, hu, hrun⟩ := h r hr
  exact ⟨s, hs, u ++ v, ⟨u, hu, v, hv, rfl⟩, (foldlM_append_of_some hrun v).trans hrun'⟩

theorem Reaches.kstar_refl (l : Language α) (S : Set σ) : Reaches step l∗ S S :=
  fun s hs => ⟨s, hs, [], Language.nil_mem_kstar l, rfl⟩

theorem Reaches.kstar_step (h : Reaches step l∗ S R) (h' : Reaches step l R S') :
    Reaches step l∗ S S' :=
  (h.mul h').mono_lang kstar_mul_le_kstar

theorem Rejects.mono_lang (h : Rejects step l S) (hl : l ≤ m) : Rejects step m S := by
  obtain ⟨s, hs, w, hw, hrun⟩ := h
  exact ⟨s, hs, w, hl hw, hrun⟩

/-- A word rejected early stays rejected, if there is a way to go on. -/
theorem Rejects.mul_left (h : Rejects step l S) {v : List α} (hv : v ∈ m) :
    Rejects step (l * m) S := by
  obtain ⟨s, hs, u, hu, hrun⟩ := h
  exact ⟨s, hs, u ++ v, ⟨u, hu, v, hv, rfl⟩, foldlM_append_of_none hrun v⟩

theorem Rejects.mul_right (h : Reaches step l S R) (h' : Rejects step m R) :
    Rejects step (l * m) S := by
  obtain ⟨r, hr, v, hv, hrun'⟩ := h'
  obtain ⟨s, hs, u, hu, hrun⟩ := h r hr
  exact ⟨s, hs, u ++ v, ⟨u, hu, v, hv, rfl⟩, (foldlM_append_of_some hrun v).trans hrun'⟩

theorem Rejects.kstar_step (h : Reaches step l∗ S R) (h' : Rejects step l R) : Rejects step l∗ S :=
  (Rejects.mul_right h h').mono_lang kstar_mul_le_kstar

end EtasFrontend.Lib
