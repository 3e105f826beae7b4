/-
SquidHelper/Lib/LinkedList.lean

Singly linked lists in a heap of nodes.  An address is a number and a free cell is
`none`, so that following a pointer into a freed node is seen.

`Holds heap p xs` says that the list from pointer `p` on is well formed and holds the
values `xs`.  Its rules are those a program needs: read the head, push a node, free the
head.
-/
import Mathlib

namespace LinkedList

structure Node (α : Type*) where
  value : α
  next : Option ℕ

/-- The nodes that are allocated, by their addresses. -/
abbrev Heap (α : Type*) := ℕ → Option (Node α)

variable {α : Type*} {heap : Heap α}

/-- The pointer to the first of some cells. -/
def first (cells : List (ℕ × α)) : Option ℕ := cells.head?.map Prod.fst

/-- The cells are allocated, and each points to the next one. -/
def Linked (heap : Heap α) : List (ℕ × α) → Prop
  | [] => True
  | (p, x) :: cells => heap p = some ⟨x, first cells⟩ ∧ Linked heap cells

theorem Linked.congr {heap' : Heap α} {cells : List (ℕ × α)} (h : Linked heap cells)
    (heq : ∀ p ∈ cells.map Prod.fst, heap' p = heap p) : Linked heap' cells := by
  induction cells with
  | nil => trivial
  | cons cell cells ih =>
      obtain ⟨hp, hrest⟩ := h
      refine ⟨(heq _ (by simp)).trans hp, ih hrest fun q hq => heq q ?_⟩
      exact List.mem_cons_of_mem _ hq

/-- A linked cell is allocated. -/
theorem Linked.ne_none {cells : List (ℕ × α)} (h : Linked heap cells) {p : ℕ}
    (hp : p ∈ cells.map Prod.fst) : heap p ≠ none := by
  induction cells with
  | nil => cases hp
  | cons cell cells ih =>
      obtain ⟨hcell, hrest⟩ := h
      rcases List.mem_cons.mp hp with rfl | hp
      · simp [hcell]
      · exact ih hrest hp

/-- The list from `ptr` on holds `xs`; no cell is used twice. -/
def Holds (heap : Heap α) (ptr : Option ℕ) (xs : List α) : Prop :=
  ∃ cells, Linked heap cells ∧ (cells.map Prod.fst).Nodup ∧ first cells = ptr ∧
    cells.map Prod.snd = xs

theorem Holds.nil (heap : Heap α) : Holds heap none [] := ⟨[], trivial, .nil, rfl, rfl⟩

theorem Holds.eq_nil {xs : List α} (h : Holds heap none xs) : xs = [] := by
  obtain ⟨cells, -, -, hfirst, rfl⟩ := h
  cases cells with
  | nil => rfl
  | cons cell cells => cases hfirst

/-- A pointer into the list leads to a node, and the node to the rest. -/
theorem Holds.load {p : ℕ} {xs : List α} (h : Holds heap (some p) xs) :
    ∃ node ys, heap p = some node ∧ xs = node.value :: ys ∧ Holds heap node.next ys := by
  obtain ⟨cells, hlinked, hnodup, hfirst, rfl⟩ := h
  cases cells with
  | nil => cases hfirst
  | cons cell cells =>
      obtain ⟨q, x⟩ := cell
      obtain rfl : q = p := Option.some.inj hfirst
      obtain ⟨hp, hrest⟩ := hlinked
      exact ⟨_, _, hp, rfl, cells, hrest, (List.nodup_cons.mp hnodup).2, rfl, rfl⟩

/-- A new node in front of the list. -/
theorem Holds.push {ptr : Option ℕ} {xs : List α} (h : Holds heap ptr xs) {p : ℕ}
    (hfree : heap p = none) (x : α) :
    Holds (Function.update heap p (some ⟨x, ptr⟩)) (some p) (x :: xs) := by
  obtain ⟨cells, hlinked, hnodup, rfl, rfl⟩ := h
  have hp : p ∉ cells.map Prod.fst := fun hp => hlinked.ne_none hp hfree
  refine ⟨(p, x) :: cells, ⟨Function.update_self .., hlinked.congr fun q hq => ?_⟩,
    List.nodup_cons.mpr ⟨hp, hnodup⟩, rfl, rfl⟩
  have hne : q ≠ p := fun hqp => hp (hqp ▸ hq)
  exact Function.update_of_ne hne ..

/-- The first node is freed, and the list goes on behind it. -/
theorem Holds.pop {p : ℕ} {xs : List α} (h : Holds heap (some p) xs) :
    ∃ node ys, heap p = some node ∧ xs = node.value :: ys ∧
      Holds (Function.update heap p none) node.next ys := by
  obtain ⟨cells, hlinked, hnodup, hfirst, rfl⟩ := h
  cases cells with
  | nil => cases hfirst
  | cons cell cells =>
      obtain ⟨q, x⟩ := cell
      obtain rfl : q = p := Option.some.inj hfirst
      obtain ⟨hp, hrest⟩ := hlinked
      obtain ⟨hq, hnodup⟩ := List.nodup_cons.mp hnodup
      refine ⟨_, _, hp, rfl, cells, hrest.congr fun r hr => ?_, hnodup, rfl, rfl⟩
      have hne : r ≠ q := fun hrq => hq (hrq ▸ hr)
      exact Function.update_of_ne hne ..

end LinkedList
