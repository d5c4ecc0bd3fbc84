/-
Chains of links in a table.  Every valid node has a successor, a chain goes on
as long as its nodes are valid, and one that ends visits no node twice.
-/
import Mathlib.Data.Finset.Card
import Mathlib.Data.List.Basic
import Mathlib.Tactic.Common

namespace LinkChain

variable {α : Type*} {valid : α → Prop} {next : α → α}

/-- The valid nodes from `a` on, up to the first that is not. -/
inductive Chain (valid : α → Prop) (next : α → α) : α → List α → Prop
  | stop {a : α} (h : ¬ valid a) : Chain valid next a []
  | link {a : α} {l : List α} (h : valid a)
      (rest : Chain valid next (next a) l) : Chain valid next a (a :: l)

namespace Chain

variable {a : α} {l : List α}

theorem unique {l' : List α} (h : Chain valid next a l)
    (h' : Chain valid next a l') : l = l' := by
  induction h generalizing l' with
  | stop hstop =>
      cases h' with
      | stop => rfl
      | link hvalid => exact absurd hvalid hstop
  | link hvalid _ ih =>
      cases h' with
      | stop hstop => exact absurd hvalid hstop
      | link _ rest => rw [ih rest]

theorem valid_of_mem (h : Chain valid next a l) {x : α} (hx : x ∈ l) :
    valid x := by
  induction h with
  | stop => cases hx
  | link hvalid _ ih =>
      rcases List.mem_cons.mp hx with rfl | hx
      · exact hvalid
      · exact ih hx

/-- The chain from a node on a chain is the rest of it. -/
theorem suffix_of_mem (h : Chain valid next a l) {x : α} (hx : x ∈ l) :
    ∃ front back, l = front ++ back ∧ Chain valid next x back := by
  induction h with
  | stop => cases hx
  | @link a l hvalid rest ih =>
      rcases List.mem_cons.mp hx with rfl | hx
      · exact ⟨[], x :: l, rfl, .link hvalid rest⟩
      · obtain ⟨front, back, rfl, hback⟩ := ih hx
        exact ⟨a :: front, back, rfl, hback⟩

theorem nodup (h : Chain valid next a l) : l.Nodup := by
  induction h with
  | stop => exact List.nodup_nil
  | @link a l hvalid rest ih =>
      refine List.nodup_cons.mpr ⟨?_, ih⟩
      intro hmem
      obtain ⟨front, back, hl, hback⟩ := rest.suffix_of_mem hmem
      have hlen := congrArg List.length (hback.unique (.link hvalid rest))
      rw [hl] at hlen
      simp only [List.length_cons, List.length_append] at hlen
      omega

/-- A chain is no longer than there are valid nodes. -/
theorem length_le_card (h : Chain valid next a l) {s : Finset α}
    (hs : ∀ x, valid x → x ∈ s) : l.length ≤ s.card := by
  classical
  rw [← List.toFinset_card_of_nodup h.nodup]
  apply Finset.card_le_card
  intro x hx
  exact hs x (h.valid_of_mem (List.mem_toFinset.mp hx))

/-- The chain from `a` ends, unless its first nodes are all valid. -/
theorem exists_or_valid (valid : α → Prop) (next : α → α) (a : α) (n : Nat) :
    (∃ l, Chain valid next a l) ∨ ∀ i ≤ n, valid (next^[i] a) := by
  induction n generalizing a with
  | zero =>
      by_cases h : valid a
      · right
        intro i hi
        rw [Nat.le_zero.mp hi]
        exact h
      · exact Or.inl ⟨[], .stop h⟩
  | succ n ih =>
      by_cases h : valid a
      · rcases ih (next a) with ⟨l, hl⟩ | hall
        · exact Or.inl ⟨a :: l, .link h hl⟩
        · right
          intro i hi
          cases i with
          | zero => exact h
          | succ i => exact hall i (Nat.le_of_succ_le_succ hi)
      · exact Or.inl ⟨[], .stop h⟩

/-- Among finitely many valid nodes, a walk that never comes back to one of
them is a chain that ends. -/
theorem exists_of_injective {s : Finset α} (hs : ∀ x, valid x → x ∈ s)
    (hinj : ∀ i j, i < j → (∀ k ≤ j, valid (next^[k] a)) →
      next^[i] a ≠ next^[j] a) : ∃ l, Chain valid next a l := by
  rcases exists_or_valid valid next a s.card with hchain | hall
  · exact hchain
  · exfalso
    have hmaps : ∀ i ∈ Finset.range (s.card + 1), next^[i] a ∈ s := by
      intro i hi
      exact hs _ (hall i (Nat.le_of_lt_succ (Finset.mem_range.mp hi)))
    obtain ⟨i, hi, j, hj, hne, heq⟩ :=
      Finset.exists_ne_map_eq_of_card_lt_of_maps_to
        (by rw [Finset.card_range]; omega) hmaps
    have hvalid : ∀ j ∈ Finset.range (s.card + 1), ∀ k ≤ j,
        valid (next^[k] a) := by
      intro j hj k hk
      have := Finset.mem_range.mp hj
      exact hall k (by omega)
    rcases Nat.lt_or_gt_of_ne hne with hlt | hgt
    · exact hinj i j hlt (hvalid j hj) heq
    · exact hinj j i hgt (hvalid i hi) heq.symm

end Chain

end LinkChain
