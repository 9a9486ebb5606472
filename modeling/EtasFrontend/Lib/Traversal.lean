import EtasFrontend.Lib.Nesting
import EtasFrontend.Lib.TreeSearch
import Mathlib.Data.List.Count
import Mathlib.Data.List.Perm.Basic

/-! Work that makes more work, and traversals that enter a node, go through its children and leave
it. Both are counted through what they list. -/
namespace EtasFrontend.Lib
open Relation

/-! Counts. -/

section
variable {α β : Type} [BEq α] [LawfulBEq α] [BEq β] [LawfulBEq β] {f : α → List β} {a : α} {b : β}

/-- An element that one list of many only can have. -/
theorem count_flatMap_of_only {l : List α} (h : ∀ x ∈ l, b ∈ f x → x = a) :
    (l.flatMap f).count b = l.count a * (f a).count b := by
  induction l with
  | nil => simp
  | cons x l ih =>
    rw [List.forall_mem_cons] at h
    rw [List.flatMap_cons, List.count_append, ih h.2]
    by_cases hx : x = a
    · subst hx
      rw [List.count_cons_self, Nat.add_mul, Nat.one_mul, Nat.add_comm]
    · have hnot : b ∉ f x := fun hmem => hx (h.1 hmem)
      rw [List.count_eq_zero_of_not_mem hnot, List.count_cons_of_ne hx, Nat.zero_add]

theorem count_le_count_flatMap (h : b ∈ f a) (l : List α) : l.count a ≤ (l.flatMap f).count b := by
  induction l with
  | nil => exact Nat.zero_le _
  | cons x l ih =>
    rw [List.flatMap_cons, List.count_append]
    by_cases hx : x = a
    · subst hx
      have hpos : 0 < (f x).count b := List.count_pos_iff.mpr h
      rw [List.count_cons_self]
      omega
    · rw [List.count_cons_of_ne hx]
      omega

omit [BEq α] [LawfulBEq α] [BEq β] [LawfulBEq β] in
theorem eq_of_nodup_filterMap {l : List α} {g : α → Option β} (h : (l.filterMap g).Nodup)
    {x y : α} (hx : x ∈ l) (hy : y ∈ l) (hgx : g x = some b) (hgy : g y = some b) : x = y := by
  induction l with
  | nil => cases hx
  | cons z l ih =>
    have hmem : ∀ {w}, w ∈ l → g w = some b → b ∈ l.filterMap g := fun hw hgw =>
      List.mem_filterMap.mpr ⟨_, hw, hgw⟩
    rcases List.mem_cons.mp hx with rfl | hxl
    · rw [List.filterMap_cons_some hgx, List.nodup_cons] at h
      rcases List.mem_cons.mp hy with rfl | hyl
      · rfl
      · exact absurd (hmem hyl hgy) h.1
    · rcases List.mem_cons.mp hy with rfl | hyl
      · rw [List.filterMap_cons_some hgy, List.nodup_cons] at h
        exact absurd (hmem hxl hgx) h.1
      · refine ih ?_ hxl hyl
        exact h.sublist ((List.sublist_cons_self z l).filterMap g)

theorem count_le_count_filterMap (l : List α) {g : α → Option β} (h : g a = some b) :
    l.count a ≤ (l.filterMap g).count b := by
  rw [List.count_filterMap]
  refine List.countP_mono_left fun x _ hx => ?_
  rw [beq_iff_eq] at hx ⊢
  rw [hx, h]

end

/-! Tasks that ask for others. -/

section
variable {τ : Type} (asks : τ → List τ)

/-- When the pending tasks and all that they ask for are done, these are, in their order. -/
inductive Does : List τ → List τ → Prop
  | nil : Does [] []
  | cons {task : τ} {pending next done : List τ} (hnext : next.Perm (asks task ++ pending))
      (h : Does next done) : Does (task :: pending) (task :: done)

variable {asks} {pending done pending' done' : List τ} (h : Does asks pending done)
include h

/-- A task is done for each time it is pending at first or asked for. -/
theorem Does.perm : done.Perm (pending ++ done.flatMap asks) := by
  induction h with
  | nil => exact .nil
  | @cons task pending next done hnext _ ih =>
    have htasks : done.Perm (pending ++ (asks task ++ done.flatMap asks)) := by
      calc done.Perm (next ++ done.flatMap asks) := ih
        _ |>.Perm ((asks task ++ pending) ++ done.flatMap asks) := hnext.append_right _
        _ |>.Perm (pending ++ (asks task ++ done.flatMap asks)) := by
          rw [List.append_assoc]
          exact List.perm_append_comm_assoc ..
    exact htasks.cons task

theorem Does.append (h' : Does asks pending' done') :
    Does asks (pending ++ pending') (done ++ done') := by
  induction h with
  | nil => exact h'
  | @cons task pending next done hnext _ ih =>
    refine .cons ?_ ih
    change (next ++ pending').Perm (asks task ++ (pending ++ pending'))
    rw [← List.append_assoc]
    exact hnext.append_right pending'

/-- What holds of the first tasks and is passed on holds of all that is done. -/
theorem Does.forall_done {p : τ → Prop} (hpending : ∀ task ∈ pending, p task)
    (hasks : ∀ task, p task → ∀ next ∈ asks task, p next) : ∀ task ∈ done, p task := by
  induction h with
  | nil => exact List.forall_mem_nil p
  | @cons task pending next done hnext _ ih =>
    rw [List.forall_mem_cons] at hpending ⊢
    refine ⟨hpending.1, ih fun other hother => ?_⟩
    rcases List.mem_append.mp (hnext.mem_iff.mp hother) with hother | hother
    · exact hasks task hpending.1 other hother
    · exact hpending.2 other hother

theorem Does.closed {task : τ} (htask : task ∈ done) : ∀ next ∈ asks task, next ∈ done := by
  intro next hnext
  have hmem : next ∈ pending ++ done.flatMap asks :=
    List.mem_append_right _ (List.mem_flatMap.mpr ⟨task, htask, hnext⟩)
  exact h.perm.mem_iff.mpr hmem

/-- A task is done at least as often as one that asks for it. -/
theorem Does.count_le [DecidableEq τ] {task next : τ} (hnext : next ∈ asks task) :
    done.count task ≤ done.count next := by
  have hcount := count_le_count_flatMap hnext done
  rw [h.perm.count_eq next, List.count_append]
  omega

/-- Work that ends does so along every chain of tasks. -/
theorem Does.acc : ∀ task ∈ done, Acc (fun next task => next ∈ asks task) task := by
  have hfirst : ∀ task ∈ pending, Acc (fun next task => next ∈ asks task) task := by
    induction h with
    | nil => exact List.forall_mem_nil _
    | @cons task pending next done hnext _ ih =>
      have hall : ∀ other ∈ asks task ++ pending, Acc (fun next task => next ∈ asks task) other :=
        fun other hother => ih other (hnext.mem_iff.mpr hother)
      rw [List.forall_mem_append] at hall
      exact List.forall_mem_cons.mpr ⟨⟨_, hall.1⟩, hall.2⟩
  exact h.forall_done hfirst fun task htask next hnext => htask.inv hnext

end

section
variable {ν : Type} (children : ν → List ν)

inductive Hook (ν : Type) where
  | enter (a : ν)
  | exit (a : ν)

/-- The hooks of a traversal of some nodes, in their order. -/
inductive Traverses : List ν → List (Hook ν) → Prop
  | nil : Traverses [] []
  | cons {a : ν} {nodes : List ν} {inner rest : List (Hook ν)}
      (hinner : Traverses (children a) inner) (hrest : Traverses nodes rest) :
      Traverses (a :: nodes) (.enter a :: (inner ++ .exit a :: rest))

def Hook.entered? : Hook ν → Option ν
  | .enter a => some a
  | .exit _ => none

def Hook.exited? : Hook ν → Option ν
  | .enter _ => none
  | .exit a => some a

def entered (hooks : List (Hook ν)) : List ν := hooks.filterMap Hook.entered?

def exited (hooks : List (Hook ν)) : List ν := hooks.filterMap Hook.exited?

/-- The hooks of one node. -/
def Hook.Pair (first last : Hook ν) : Prop := ∃ a, first = .enter a ∧ last = .exit a

variable {children} {nodes : List ν} {hooks : List (Hook ν)}

theorem entered_group (a : ν) (inner rest : List (Hook ν)) :
    entered (.enter a :: (inner ++ .exit a :: rest)) = a :: (entered inner ++ entered rest) := by
  simp [entered, Hook.entered?, List.filterMap_cons]

theorem exited_group (a : ν) (inner rest : List (Hook ν)) :
    exited (.enter a :: (inner ++ .exit a :: rest)) = exited inner ++ a :: exited rest := by
  simp [exited, Hook.exited?, List.filterMap_cons]

theorem exists_traverses
    (h : ∀ a ∈ nodes, Acc (fun child parent => child ∈ children parent) a) :
    ∃ hooks, Traverses children nodes hooks := by
  have hlist : ∀ nodes : List ν, (∀ a ∈ nodes, ∃ hooks, Traverses children [a] hooks) →
      ∃ hooks, Traverses children nodes hooks := by
    intro nodes hall
    induction nodes with
    | nil => exact ⟨[], .nil⟩
    | cons a nodes ih =>
      rw [List.forall_mem_cons] at hall
      obtain ⟨first, hfirst⟩ := hall.1
      obtain ⟨rest, hrest⟩ := ih hall.2
      cases hfirst with
      | cons hinner _ => exact ⟨_, .cons hinner hrest⟩
  have hone : ∀ a, Acc (fun child parent => child ∈ children parent) a →
      ∃ hooks, Traverses children [a] hooks := by
    intro a ha
    induction ha with
    | intro a _ ih =>
      obtain ⟨inner, hinner⟩ := hlist (children a) ih
      exact ⟨_, .cons hinner .nil⟩
  exact hlist nodes fun a ha => hone a (h a ha)

section
variable (h : Traverses children nodes hooks)
include h

theorem Traverses.balanced {top : Hook ν → Prop} : Balanced Hook.Pair top hooks := by
  induction h generalizing top with
  | nil => exact .nil
  | cons _ _ ihinner ihrest => exact .group ⟨_, rfl, rfl⟩ ihinner ihrest

/-- A node is entered for each time it is listed, at first or by a node that is entered. -/
theorem Traverses.entered_perm :
    (entered hooks).Perm (nodes ++ (entered hooks).flatMap children) := by
  induction h with
  | nil => exact .nil
  | @cons a nodes inner rest _ _ ihinner ihrest =>
    rw [entered_group, List.flatMap_cons, List.flatMap_append, List.cons_append]
    refine List.Perm.cons a ?_
    calc (entered inner ++ entered rest).Perm ((children a ++ (entered inner).flatMap children) ++
          (nodes ++ (entered rest).flatMap children)) := ihinner.append ihrest
      _ |>.Perm (nodes ++ ((children a ++ (entered inner).flatMap children) ++
          (entered rest).flatMap children)) := List.perm_append_comm_assoc ..
      _ |>.Perm (nodes ++ (children a ++ ((entered inner).flatMap children ++
          (entered rest).flatMap children))) := by rw [List.append_assoc (children a)]

theorem Traverses.exited_perm : (exited hooks).Perm (entered hooks) := by
  induction h with
  | nil => exact .nil
  | @cons a nodes inner rest _ _ ihinner ihrest =>
    rw [entered_group, exited_group]
    exact List.perm_middle.trans ((ihinner.append ihrest).cons a)

theorem Traverses.mem_entered {b : ν}
    (hb : b ∈ entered hooks) : ∃ a ∈ nodes, Below children a b := by
  induction h with
  | nil => cases hb
  | @cons a nodes inner rest _ _ ihinner ihrest =>
    rw [entered_group, List.mem_cons, List.mem_append] at hb
    rcases hb with rfl | hb | hb
    · exact ⟨b, List.mem_cons_self, .refl⟩
    · obtain ⟨child, hchild, hbelow⟩ := ihinner hb
      exact ⟨a, List.mem_cons_self, .head hchild hbelow⟩
    · obtain ⟨node, hnode, hbelow⟩ := ihrest hb
      exact ⟨node, List.mem_cons_of_mem a hnode, hbelow⟩

end

variable [DecidableEq ν]

/-- A node that one node only lists. -/
theorem Traverses.count_entered (h : Traverses children nodes hooks) {a p : ν} (ha : a ∉ nodes)
    (honly : ∀ b ∈ entered hooks, a ∈ children b → b = p) :
    (entered hooks).count a = (entered hooks).count p * (children p).count a := by
  rw [h.entered_perm.count_eq, List.count_append, List.count_eq_zero_of_not_mem ha, Nat.zero_add,
    count_flatMap_of_only honly]

/-- A node that no node lists. -/
theorem Traverses.count_entered_root (h : Traverses children nodes hooks) {a : ν}
    (hnone : ∀ b ∈ entered hooks, a ∉ children b) : (entered hooks).count a = nodes.count a := by
  have hnot : a ∉ (entered hooks).flatMap children := by
    rw [List.mem_flatMap]
    exact fun ⟨b, hb, hmem⟩ => hnone b hb hmem
  rw [h.entered_perm.count_eq, List.count_append, List.count_eq_zero_of_not_mem hnot, Nat.add_zero]

/-- A root that is not below itself. -/
theorem Traverses.count_root {a : ν} (h : Traverses children [a] hooks)
    (ha : Acc (fun child parent => child ∈ children parent) a) : (entered hooks).count a = 1 := by
  have hirrefl : ∀ x, Acc (TransGen fun child parent => child ∈ children parent) x →
      ¬TransGen (fun child parent => child ∈ children parent) x x := by
    intro x hx
    induction hx with
    | intro x _ ih => exact fun hself => ih x hself hself
  have hcycle : ∀ b, Below children a b → a ∉ children b := fun b hbelow hmem =>
    hirrefl a ha.transGen (TransGen.head' hmem (reflTransGen_swap.mp hbelow))
  rw [h.count_entered_root fun b hb => ?_, List.count_singleton_self]
  obtain ⟨root, hroot, hbelow⟩ := h.mem_entered hb
  rw [List.mem_singleton.mp hroot] at hbelow
  exact hcycle b hbelow

end

variable {ν σ ε : Type} (next : ν → Except ε (List ν)) (hook : σ → Hook ν → σ) (halt : ε)

/-- The top of the stack is its head: nodes to enter, and nodes to leave. -/
def traverse : ℕ → List (Hook ν) → σ → Except ε σ
  | _, [], s => .ok s
  | 0, _ :: _, _ => .error halt
  | fuel + 1, .enter a :: stack, s => do
    let children ← next a
    traverse fuel (children.map .enter ++ .exit a :: stack) (hook s (.enter a))
  | fuel + 1, .exit a :: stack, s => traverse fuel stack (hook s (.exit a))

variable {next hook halt} {children : ν → List ν} {nodes : List ν} {hooks : List (Hook ν)}

theorem traverse_nil (fuel : ℕ) (s : σ) : traverse next hook halt fuel [] s = .ok s := by
  cases fuel <;> rfl

theorem Traverses.run (h : Traverses children nodes hooks)
    (hnext : ∀ a ∈ entered hooks, next a = .ok (children a)) (fuel : ℕ) (stack : List (Hook ν))
    (s : σ) : traverse next hook halt (fuel + hooks.length) (nodes.map .enter ++ stack) s =
      traverse next hook halt fuel stack (hooks.foldl hook s) := by
  induction h generalizing fuel stack s with
  | nil => rfl
  | @cons a nodes inner rest _ _ ihinner ihrest =>
    rw [entered_group, List.forall_mem_cons, List.forall_mem_append] at hnext
    have hlen : fuel + (Hook.enter a :: (inner ++ .exit a :: rest)).length =
        (fuel + rest.length + 1) + inner.length + 1 := by
      simp only [List.length_cons, List.length_append]
      omega
    rw [hlen, List.map_cons, List.cons_append, traverse, hnext.1]
    change traverse next hook halt (fuel + rest.length + 1 + inner.length)
      ((children a).map .enter ++ .exit a :: (nodes.map .enter ++ stack)) _ = _
    rw [ihinner hnext.2.1, traverse, ihrest hnext.2.2, List.foldl_cons, List.foldl_append,
      List.foldl_cons]

theorem Traverses.returns (h : Traverses children nodes hooks)
    (hnext : ∀ a ∈ entered hooks, next a = .ok (children a)) (s : σ) {fuel : ℕ}
    (hfuel : fuel ≥ hooks.length) :
    traverse next hook halt fuel (nodes.map .enter) s = .ok (hooks.foldl hook s) := by
  have hrun : traverse next hook halt (fuel - hooks.length + hooks.length)
      (nodes.map .enter ++ []) s =
        traverse next hook halt (fuel - hooks.length) [] (hooks.foldl hook s) :=
    h.run hnext (fuel - hooks.length) [] s
  rwa [Nat.sub_add_cancel hfuel, List.append_nil, traverse_nil] at hrun

/-- The hooks called so far, for a visitor that notes them. -/
def noteHook (hooks : List (Hook ν)) (hook : Hook ν) : List (Hook ν) := hooks ++ [hook]

theorem foldl_noteHook (hooks before : List (Hook ν)) :
    hooks.foldl noteHook before = before ++ hooks := by
  induction hooks generalizing before with
  | nil => exact (List.append_nil before).symm
  | cons hook hooks ih => rw [List.foldl_cons, ih, noteHook, List.append_assoc]; rfl

/-- A run goes on from what it has noted. -/
theorem prefix_of_traverse {fuel : ℕ} {stack before after : List (Hook ν)}
    (h : traverse next noteHook halt fuel stack before = .ok after) : before <+: after := by
  induction fuel generalizing stack before with
  | zero =>
    cases stack with
    | nil =>
      cases h
      exact List.prefix_rfl
    | cons hook stack => cases h
  | succ fuel ih =>
    cases stack with
    | nil =>
      cases h
      exact List.prefix_rfl
    | cons hook stack =>
      have hnoted : before <+: noteHook before hook := List.prefix_append before [hook]
      cases hook with
      | enter a =>
        rw [traverse] at h
        cases hnext : next a with
        | error halt =>
          rw [hnext] at h
          cases h
        | ok children =>
          rw [hnext] at h
          exact hnoted.trans (ih h)
      | exit a => exact hnoted.trans (ih h)

/-- The first child of a root is entered next. -/
theorem prefix_of_first {fuel : ℕ} {a b : ν} {rest : List ν} {after : List (Hook ν)}
    (hnext : next a = .ok (b :: rest))
    (h : traverse next noteHook halt (fuel + 2) [.enter a] [] = .ok after) :
    [.enter a, .enter b] <+: after := by
  rw [traverse, hnext] at h
  change traverse next noteHook halt (fuel + 1) (.enter b :: (rest.map .enter ++ [.exit a]))
    [.enter a] = .ok after at h
  rw [traverse] at h
  cases hb : next b with
  | error halt =>
    rw [hb] at h
    cases h
  | ok children =>
    rw [hb] at h
    exact prefix_of_traverse h

end EtasFrontend.Lib
