import Mathlib.Init

/-! What computations with a state write: a relation between the state before, a list of writes and
the state after, which composes. A triple of a computation is made of those of its parts. -/
namespace EtasFrontend.Lib
variable {σ ω : Type} {α β : Type}

section
variable {p : StateT σ Option α} {f : α → StateT σ Option β} {s s' : σ} {b : β}

theorem exists_of_bind (h : (p >>= f) s = some (b, s')) :
    ∃ a middle, p s = some (a, middle) ∧ f a middle = some (b, s') := by
  change (p s).bind (fun r => f r.1 r.2) = some (b, s') at h
  obtain ⟨⟨a, middle⟩, ha, hf⟩ := Option.bind_eq_some_iff.mp h
  exact ⟨a, middle, ha, hf⟩

theorem exists_of_lift {x : Option α} {a : α}
    (h : (liftM x : StateT σ Option α) s = some (a, s')) : x = some a ∧ s' = s := by
  change x.bind (fun a => some (a, s)) = some (a, s') at h
  obtain ⟨_, hx, heq⟩ := Option.bind_eq_some_iff.mp h
  cases heq
  exact ⟨hx, rfl⟩

theorem exists_of_lift_bind {x : Option α} (h : (liftM x >>= f) s = some (b, s')) :
    ∃ a, x = some a ∧ f a s = some (b, s') := by
  obtain ⟨a, middle, ha, hf⟩ := exists_of_bind h
  obtain ⟨hx, rfl⟩ := exists_of_lift ha
  exact ⟨a, hx, hf⟩

end

structure Composes (R : σ → List ω → σ → Prop) : Prop where
  nil : ∀ s, R s [] s
  append : ∀ {s t u writes writes'}, R s writes t → R t writes' u → R s (writes ++ writes') u

/-- Every successful run makes these writes, and its answer is as stated. -/
def Writes (R : σ → List ω → σ → Prop) (writes : List ω) (post : α → Prop)
    (p : StateT σ Option α) : Prop :=
  ∀ s a s', p s = some (a, s') → R s writes s' ∧ post a

namespace Writes
variable {R : σ → List ω → σ → Prop} (hR : Composes R) {writes writes' : List ω}
  {post : α → Prop} {post' : β → Prop}

section
include hR

theorem pure {a : α} (ha : post a) : Writes R [] post (Pure.pure a) := by
  intro s b s' h
  cases h
  exact ⟨hR.nil s, ha⟩

variable {f : α → StateT σ Option β} {p : StateT σ Option α}

theorem bind (hp : Writes R writes post p) (hf : ∀ a, post a → Writes R writes' post' (f a)) :
    Writes R (writes ++ writes') post' (p >>= f) := by
  intro s b s' h
  obtain ⟨a, middle, ha, hb⟩ := exists_of_bind h
  obtain ⟨hfirst, hpost⟩ := hp s a middle ha
  obtain ⟨hsecond, hpost'⟩ := hf a hpost middle b s' hb
  exact ⟨hR.append hfirst hsecond, hpost'⟩

/-- The first part writes nothing. -/
theorem after (hp : Writes R [] post p)
    (hf : ∀ a, post a → Writes R writes post' (f a)) : Writes R writes post' (p >>= f) :=
  bind hR hp hf

/-- What comes last writes nothing. -/
theorem before (hp : Writes R writes post p)
    (hf : ∀ a, post a → Writes R [] post' (f a)) : Writes R writes post' (p >>= f) := by
  have h := bind hR hp hf
  rwa [List.append_nil] at h

/-- A computation that does not look at the state. -/
theorem lift {x : Option α} (hx : ∀ a, x = some a → post a) :
    Writes R [] post (liftM x : StateT σ Option α) := by
  intro s a s' h
  obtain ⟨ha, rfl⟩ := exists_of_lift h
  exact ⟨hR.nil s', hx a ha⟩

theorem get : Writes R [] (fun _ => True) (MonadState.get : StateT σ Option σ) := by
  intro s a s' h
  cases h
  exact ⟨hR.nil s, trivial⟩

theorem foldlM {f : β → α → StateT σ Option β} {ws : α → List ω} (l : List α)
    (hf : ∀ a ∈ l, ∀ b, Writes R (ws a) (fun _ => True) (f b a)) (b : β) :
    Writes R (l.flatMap ws) (fun _ => True) (l.foldlM f b) := by
  induction l generalizing b with
  | nil => exact pure hR trivial
  | cons a l ih =>
    rw [List.foldlM_cons, List.flatMap_cons]
    refine bind hR (hf a List.mem_cons_self b) fun b _ => ?_
    exact ih (fun a ha => hf a (List.mem_cons_of_mem _ ha)) b

theorem mapM {ws : α → List ω} (hf : ∀ a, Writes R (ws a) (fun _ => True) (f a)) (x : Option α) :
    Writes R (x.toList.flatMap ws) (fun _ => True) (x.mapM f) := by
  cases x with
  | none => exact pure hR trivial
  | some a =>
    have answer (b : β) : Writes R [] (fun _ => True) (Pure.pure (some b) : StateT σ Option _) :=
      pure hR trivial
    have h := before hR (hf a) fun b _ => answer b
    simpa using h

end

theorem update {f : σ → σ} (hf : ∀ s, R s writes (f s)) :
    Writes R writes (fun _ => True) (modify f : StateT σ Option PUnit) := by
  intro s a s' h
  cases h
  exact ⟨hf s, trivial⟩

theorem failure : Writes R writes post (fun _ => none : StateT σ Option α) := by
  intro s a s' h
  cases h

theorem mono {p : StateT σ Option α} {post' : α → Prop} (hp : Writes R writes post p)
    (h : ∀ a, post a → post' a) : Writes R writes post' p :=
  fun s a s' hrun => ⟨(hp s a s' hrun).1, h a (hp s a s' hrun).2⟩

end Writes
end EtasFrontend.Lib
