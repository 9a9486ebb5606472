import Mathlib.Order.Lattice

/-! Searching and walking the nodes below a node, with fuel. -/
namespace EtasFrontend.Lib
open Relation

variable {ν ε : Type} (children : ν → List ν) (goal : ν → Bool)

/-- A node below another one, or the node itself. -/
def Below : ν → ν → Prop := ReflTransGen fun parent child => child ∈ children parent

/-- One step of a search: the node itself, then its children from left to right. -/
def SearchStep (search : ℕ → ν → Except ε Bool) (a : ν) : Prop :=
  ∀ fuel, search (fuel + 1) a =
    if goal a then .ok true else (children a).anyM (search fuel)

variable {children goal}

theorem Below.mono {children' : ν → List ν} (h : ∀ a, children a ⊆ children' a) {a b : ν}
    (hab : Below children a b) : Below children' a b :=
  ReflTransGen.mono (fun parent _ hc => h parent hc) _ _ hab

/-- Nodes that list their children among them. -/
theorem Below.mem_of_closed {l : List ν} (h : ∀ a ∈ l, ∀ b ∈ children a, b ∈ l) {a b : ν}
    (ha : a ∈ l) (hab : Below children a b) : b ∈ l := by
  induction hab with
  | refl => exact ha
  | tail _ hc ih => exact h _ ih _ hc

theorem Below.acc {a b : ν} (ha : Acc (fun child parent => child ∈ children parent) a)
    (hab : Below children a b) : Acc (fun child parent => child ∈ children parent) b := by
  induction hab with
  | refl => exact ha
  | tail _ hc ih => exact ih.inv hc

theorem anyM_map {α β : Type} (f : α → β) (p : β → Except ε Bool) (l : List α) :
    (l.map f).anyM p = l.anyM fun a => p (f a) := by
  induction l with
  | nil => rfl
  | cons a l ih => rw [List.map_cons, List.anyM_cons, List.anyM_cons, ih]

theorem anyM_singleton {α : Type} (p : α → Except ε Bool) (a : α) : [a].anyM p = p a := by
  rw [List.anyM_cons, List.anyM_nil]
  cases p a with
  | error e => rfl
  | ok found => cases found <;> rfl

theorem anyM_append {α : Type} (p : α → Except ε Bool) (l l' : List α) :
    (l ++ l').anyM p = l.anyM p >>= fun found => if found then .ok true else l'.anyM p := by
  induction l with
  | nil => rfl
  | cons a l ih =>
    rw [List.cons_append, List.anyM_cons, List.anyM_cons, ih, bind_assoc]
    congr 1
    funext found
    cases found <;> rfl

/-- What a search with enough fuel returns. -/
def SearchReturns (search : ℕ → ν → Except ε Bool) (a : ν) (found : Bool) : Prop :=
  ∃ bound, ∀ fuel ≥ bound, search fuel a = .ok found

theorem anyM_returns {search : ℕ → ν → Except ε Bool} {p : ν → Prop} (l : List ν)
    (h : ∀ a ∈ l, ∃ found, SearchReturns search a found ∧ (found = true ↔ p a)) :
    ∃ found, (∃ bound, ∀ fuel ≥ bound, l.anyM (search fuel) = .ok found) ∧
      (found = true ↔ ∃ a ∈ l, p a) := by
  induction l with
  | nil => exact ⟨false, ⟨0, fun _ _ => rfl⟩, by simp⟩
  | cons a l ih =>
    obtain ⟨first, ⟨bound, hfirst⟩, hp⟩ := h a List.mem_cons_self
    obtain ⟨rest, ⟨bound', hrest⟩, hp'⟩ := ih fun b hb => h b (List.mem_cons_of_mem a hb)
    refine ⟨first || rest, ⟨max bound bound', ?_⟩, ?_⟩
    · intro fuel hfuel
      rw [List.anyM_cons, hfirst fuel (by omega), hrest fuel (by omega)]
      cases first <;> rfl
    · simp [hp, hp']

/-- Where every path down ends and every node met is searched in steps, a search returns, and says
whether there is a goal. -/
theorem search_returns (search : ℕ → ν → Except ε Bool) {a : ν}
    (h : Acc (fun child parent => child ∈ children parent) a)
    (hstep : ∀ b, Below children a b → SearchStep children goal search b) :
    ∃ found, SearchReturns search a found ∧
      (found = true ↔ ∃ b, Below children a b ∧ goal b = true) := by
  induction h with
  | intro a _ ih =>
    obtain ⟨rest, ⟨bound, hrest⟩, hp⟩ := anyM_returns (children a) fun child hchild =>
      ih child hchild fun b hb => hstep b (.head hchild hb)
    have ha : ∀ fuel ≥ bound + 1, search fuel a = if goal a then .ok true else .ok rest := by
      intro fuel hfuel
      obtain ⟨n, rfl⟩ : ∃ n, fuel = n + 1 := ⟨fuel - 1, by omega⟩
      rw [hstep a .refl n, hrest n (by omega)]
    cases hg : goal a with
    | true => exact ⟨true, ⟨bound + 1, fun fuel hfuel => by simp [ha fuel hfuel, hg]⟩,
        by simpa using ⟨a, .refl, hg⟩⟩
    | false =>
      refine ⟨rest, ⟨bound + 1, fun fuel hfuel => by simp [ha fuel hfuel, hg]⟩, hp.trans ?_⟩
      constructor
      · rintro ⟨child, hchild, b, hb, hgb⟩
        exact ⟨b, .head hchild hb, hgb⟩
      · rintro ⟨b, hb, hgb⟩
        rcases hb.cases_head with rfl | ⟨child, hchild, hb⟩
        · exact absurd hgb (by simp [hg])
        · exact ⟨child, hchild, b, hb, hgb⟩

section
variable {σ : Type} (next : ν → Except ε (List ν)) (visit : σ → ν → σ) (halt : ε)

/-- A node is visited when it is popped, and its children are pushed. The top of the stack is its
head. -/
def walk : ℕ → List ν → σ → Except ε σ
  | _, [], s => .ok s
  | 0, _ :: _, _ => .error halt
  | fuel + 1, a :: stack, s => do
    let children ← next a
    walk fuel (children ++ stack) (visit s a)

variable {next visit halt}

theorem walk_nil (fuel : ℕ) (s : σ) : walk next visit halt fuel [] s = .ok s := by
  cases fuel <;> rfl

/-- The nodes that a walk of one node visits before it goes on with the rest of its stack. -/
def WalkVisits (next : ν → Except ε (List ν)) (visit : σ → ν → σ) (halt : ε) (nodes : List ν)
    (visited : List ν) : Prop :=
  ∀ fuel stack s, walk next visit halt (fuel + visited.length) (nodes ++ stack) s =
    walk next visit halt fuel stack (visited.foldl visit s)

theorem walkVisits_list {p : ν → ν → Prop} (l : List ν)
    (h : ∀ a ∈ l, ∃ visited, WalkVisits next visit halt [a] visited ∧ ∀ b, b ∈ visited ↔ p a b) :
    ∃ visited, WalkVisits next visit halt l visited ∧ ∀ b, b ∈ visited ↔ ∃ a ∈ l, p a b := by
  induction l with
  | nil => exact ⟨[], fun fuel stack s => rfl, by simp⟩
  | cons a l ih =>
    obtain ⟨first, hfirst, hp⟩ := h a List.mem_cons_self
    obtain ⟨rest, hrest, hp'⟩ := ih fun b hb => h b (List.mem_cons_of_mem a hb)
    refine ⟨first ++ rest, ?_, fun b => by simp [hp, hp']⟩
    intro fuel stack s
    have hlen : fuel + (first ++ rest).length = fuel + rest.length + first.length := by
      rw [List.length_append]
      omega
    rw [hlen, List.foldl_append, ← hrest fuel stack (first.foldl visit s)]
    exact hfirst (fuel + rest.length) (l ++ stack) s

/-- Where every path down ends, a walk visits exactly the nodes below its first one. -/
theorem walk_visits (visit : σ → ν → σ) (halt : ε) {a : ν}
    (h : Acc (fun child parent => child ∈ children parent) a)
    (hnext : ∀ b, Below children a b → next b = .ok (children b)) :
    ∃ visited, WalkVisits next visit halt [a] visited ∧
      ∀ b, b ∈ visited ↔ Below children a b := by
  induction h with
  | intro a _ ih =>
    obtain ⟨rest, hrest, hp⟩ := walkVisits_list (children a) fun child hchild =>
      ih child hchild fun b hb => hnext b (.head hchild hb)
    refine ⟨a :: rest, ?_, ?_⟩
    · intro fuel stack s
      rw [List.length_cons, ← Nat.add_assoc, List.cons_append, List.nil_append, walk,
        hnext a .refl]
      exact hrest fuel stack (visit s a)
    · intro b
      rw [List.mem_cons, hp]
      constructor
      · rintro (rfl | ⟨child, hchild, hb⟩)
        · exact .refl
        · exact .head hchild hb
      · intro hb
        rcases hb.cases_head with rfl | ⟨child, hchild, hb⟩
        · exact .inl rfl
        · exact .inr ⟨child, hchild, hb⟩

theorem WalkVisits.returns {nodes visited : List ν} (h : WalkVisits next visit halt nodes visited)
    (s : σ) {fuel : ℕ} (hfuel : fuel ≥ visited.length) :
    walk next visit halt fuel nodes s = .ok (visited.foldl visit s) := by
  have hrun := h (fuel - visited.length) [] s
  rwa [Nat.sub_add_cancel hfuel, List.append_nil, walk_nil] at hrun

end

/-! Marks that spread against the edges. -/

/-- A set that grows from the first marks, only along edges and until it is closed, holds the nodes
above a first mark. -/
theorem spread_iff {first : ν → Prop} (marked : ν → Prop) (hfirst : ∀ a, first a → marked a)
    (hfrom : ∀ a, marked a → ∃ b, Below children a b ∧ first b)
    (hclosed : ∀ a, ∀ b ∈ children a, marked b → marked a) (a : ν) :
    marked a ↔ ∃ b, Below children a b ∧ first b := by
  constructor
  · exact hfrom a
  · rintro ⟨b, hb, hf⟩
    induction hb using ReflTransGen.head_induction_on with
    | refl => exact hfirst b hf
    | head hc _ ih => exact hclosed _ _ hc ih

end EtasFrontend.Lib
