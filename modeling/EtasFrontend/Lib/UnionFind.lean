import EtasFrontend.Lib.Map
import Mathlib.Data.Finset.Card

/-! Classes of keys as a map from keys to parents. A key without a parent is alone in its class, and
a root is its own parent. -/
namespace EtasFrontend.Lib.UnionFind
variable {κ : Type} [DecidableEq κ]

/-- The root of a key, which becomes the parent of every key on the way. -/
def findWithin : ℕ → Map κ κ → κ → Option (κ × Map κ κ)
  | 0, _, _ => none
  | n + 1, parent, key =>
    match parent.get key with
    | some above =>
      if above = key then some (above, parent)
      else do
        let (root, parent) ← findWithin n parent above
        return (root, parent.insert key root)
    | none => some (key, parent.insert key key)

/-- No key is met twice on the way to a root. -/
def find (parent : Map κ κ) (key : κ) : Option (κ × Map κ κ) :=
  findWithin (parent.keys.length + 1) parent key

/-- The parents lead from each key to the root of its class. -/
structure Forest (parent : Map κ κ) (root : κ → κ) (rank : κ → ℕ) : Prop where
  closed : ∀ {key above}, parent.get key = some above → ∃ top, parent.get above = some top
  up : ∀ {key above}, parent.get key = some above → above ≠ key →
    root above = root key ∧ rank above < rank key
  self : ∀ {key}, parent.get key = some key → root key = key
  absent : ∀ {key}, parent.get key = none → root key = key

/-- The roots after the class of one root is put under another root. -/
def linkRoot (root : κ → κ) (top other : κ) (key : κ) : κ :=
  if root key = other then top else root key

/-- The keys that may still be met on the way up. -/
def above (parent : Map κ κ) (rank : κ → ℕ) (key : κ) : Finset κ :=
  parent.keys.toFinset.filter (rank · < rank key)

theorem mem_keys_iff {parent : Map κ κ} {key : κ} :
    key ∈ parent.keys ↔ ∃ top, parent.get key = some top := by
  rw [← AList.mem_keys, ← AList.lookup_isSome, Option.isSome_iff_exists]
  rfl

theorem card_above_le (parent : Map κ κ) (rank : κ → ℕ) (key : κ) :
    (above parent rank key).card ≤ parent.keys.length :=
  (Finset.card_filter_le _ _).trans (List.toFinset_card_le _)

namespace Forest
variable {parent : Map κ κ} {root : κ → κ} {rank : κ → ℕ} {key : κ}

theorem empty : Forest (∅ : Map κ κ) id fun _ => 0 where
  closed h := nomatch h
  up h := nomatch h
  self h := nomatch h
  absent _ := rfl

theorem card_above_lt (h : Forest parent root rank) {top : κ} (hkey : parent.get key = some top)
    (hne : top ≠ key) : (above parent rank top).card < (above parent rank key).card := by
  have hrank := (h.up hkey hne).2
  apply Finset.card_lt_card
  refine ⟨fun other hother => ?_, fun hsub => ?_⟩
  · have hother := Finset.mem_filter.mp hother
    exact Finset.mem_filter.mpr ⟨hother.1, hother.2.trans hrank⟩
  · have hmem : top ∈ above parent rank key :=
      Finset.mem_filter.mpr ⟨List.mem_toFinset.mpr (mem_keys_iff.mpr (h.closed hkey)), hrank⟩
    exact absurd (Finset.mem_filter.mp (hsub hmem)).2 (Nat.lt_irrefl _)

/-- A key that is made the child of its root, or a root. -/
theorem insert (h : Forest parent root rank) {top : κ}
    (htop : top ≠ key → parent.get top = some top) (hroot : top = root key)
    (hrank : top ≠ key → rank top < rank key) :
    Forest (parent.insert key top) root rank where
  closed {other above} hother := by
    rw [Map.get_insert] at hother ⊢
    split
    · exact ⟨top, rfl⟩
    next hne =>
    split at hother
    · obtain rfl := Option.some.inj hother
      exact ⟨_, htop hne⟩
    · exact h.closed hother
  up {other above} hother hne := by
    rw [Map.get_insert] at hother
    split at hother
    case isTrue heq =>
      obtain rfl := Option.some.inj hother
      rw [heq] at hne ⊢
      exact ⟨(h.self (htop hne)).trans hroot, hrank hne⟩
    case isFalse => exact h.up hother hne
  self {other} hother := by
    rw [Map.get_insert] at hother
    split at hother
    case isTrue heq =>
      rw [heq, ← hroot, ← heq]
      exact Option.some.inj hother
    case isFalse => exact h.self hother
  absent {other} hother := by
    rw [Map.get_insert] at hother
    split at hother
    · cases hother
    · exact h.absent hother

/-- What finding a root leaves behind. -/
structure Found (parent : Map κ κ) (root : κ → κ) (rank : κ → ℕ) (key : κ) (parent' : Map κ κ) :
    Prop where
  forest : Forest parent' root rank
  top : parent'.get (root key) = some (root key)
  keys : ∀ other, (∃ up, parent'.get other = some up) ↔
    other = key ∨ ∃ up, parent.get other = some up
  rank_le : root key ≠ key → rank (root key) < rank key

variable (h : Forest parent root rank)
include h

theorem insert_new (hkey : parent.get key = none) : Forest (parent.insert key key) root rank :=
  h.insert (fun hne => absurd rfl hne) (h.absent hkey).symm fun hne => absurd rfl hne

theorem findWithin_eq {n : ℕ} (hn : (above parent rank key).card < n) :
    ∃ parent', findWithin n parent key = some (root key, parent') ∧
      Found parent root rank key parent' := by
  induction n generalizing key with
  | zero => exact absurd hn (Nat.not_lt_zero _)
  | succ n ih =>
    rw [findWithin]
    cases hkey : parent.get key with
    | none =>
      have hroot := h.absent hkey
      refine ⟨parent.insert key key, by rw [hroot], h.insert_new hkey, ?_, fun other => ?_, ?_⟩
      · rw [hroot, Map.get_insert_self]
      · rw [Map.get_insert]
        split
        case isTrue heq => exact ⟨fun _ => Or.inl heq, fun _ => ⟨key, rfl⟩⟩
        case isFalse hne => exact (or_iff_right hne).symm
      · exact fun hne => absurd hroot hne
    | some up =>
      dsimp only
      split
      case isTrue heq =>
        rw [heq] at hkey
        have hroot := h.self hkey
        refine ⟨parent, by rw [hroot, heq], h, by rwa [hroot], fun other => ?_, ?_⟩
        · exact ⟨Or.inr, fun hother => hother.elim (fun heq => ⟨key, heq ▸ hkey⟩) id⟩
        · exact fun hne => absurd hroot hne
      case isFalse hne =>
        obtain ⟨hup, hrank⟩ := h.up hkey hne
        obtain ⟨parent', hfind, found⟩ := ih (Nat.lt_of_lt_of_le (h.card_above_lt hkey hne)
          (Nat.le_of_lt_succ hn))
        have hlt : rank (root key) < rank key := by
          by_cases heq : root up = up
          · rwa [← hup, heq]
          · rw [← hup]
            exact (found.rank_le heq).trans hrank
        have htop : parent'.get (root key) = some (root key) := by
          rw [← hup]
          exact found.top
        refine ⟨parent'.insert key (root key), by rw [hfind, ← hup]; rfl,
          found.forest.insert (fun _ => htop) rfl fun _ => hlt, ?_, fun other => ?_, fun _ => hlt⟩
        · rw [Map.get_insert]
          split
          · rfl
          · exact htop
        · rw [Map.get_insert]
          split
          case isTrue heq => exact ⟨fun _ => Or.inl heq, fun _ => ⟨_, rfl⟩⟩
          case isFalse hne =>
            rw [found.keys, or_iff_right hne]
            exact ⟨fun hother => hother.elim (fun heq => heq ▸ h.closed hkey) id, Or.inr⟩

theorem find_eq (key : κ) :
    ∃ parent', find parent key = some (root key, parent') ∧ Found parent root rank key parent' :=
  h.findWithin_eq (Nat.lt_succ_of_le (card_above_le parent rank key))

theorem root_root (key : κ) : root (root key) = root key := by
  obtain ⟨parent', -, found⟩ := h.find_eq key
  exact found.forest.self found.top

theorem eq_of_root {up : κ} (hkey : parent.get key = some up) (hroot : root key = key) :
    up = key := by
  by_contra hne
  obtain ⟨hup, hrank⟩ := h.up hkey hne
  obtain ⟨parent', -, found⟩ := h.find_eq up
  have hle : rank (root up) ≤ rank up := by
    by_cases heq : root up = up
    · rw [heq]
    · exact (found.rank_le heq).le
  rw [hup, hroot] at hle
  omega

theorem link {top other : κ} (htop : parent.get top = some top)
    (hother : parent.get other = some other) (hne : top ≠ other) :
    Forest (parent.insert other top) (linkRoot root top other)
      (fun key => if root key = other then rank key + rank top + 1 else rank key) where
  closed {key above} hkey := by
    rw [Map.get_insert] at hkey ⊢
    split
    · exact ⟨top, rfl⟩
    split at hkey
    · exact ⟨top, by rw [← Option.some.inj hkey, htop]⟩
    · exact h.closed hkey
  up {key above} hkey hup := by
    have hroot : root top ≠ other := by rwa [h.self htop]
    rw [Map.get_insert] at hkey
    unfold linkRoot
    split at hkey
    case isTrue heq =>
      rw [heq, ← Option.some.inj hkey, if_neg hroot, if_pos (h.self hother), if_neg hroot,
        if_pos (h.self hother), h.self htop]
      exact ⟨rfl, by omega⟩
    case isFalse =>
      obtain ⟨hsame, hrank⟩ := h.up hkey hup
      rw [hsame]
      refine ⟨rfl, ?_⟩
      split <;> omega
  self {key} hkey := by
    rw [Map.get_insert] at hkey
    split at hkey
    case isTrue heq => exact absurd ((Option.some.inj hkey).trans heq) hne
    case isFalse hkey' =>
      rw [linkRoot, h.self hkey, if_neg hkey']
  absent {key} hkey := by
    rw [Map.get_insert] at hkey
    split at hkey
    case isTrue => cases hkey
    case isFalse hkey' => rw [linkRoot, h.absent hkey, if_neg hkey']

end Forest
end EtasFrontend.Lib.UnionFind
