import Mathlib.Data.List.Flatten
import AlRefactor.Proofs.Syntax.Offsets
import AlRefactor.Proofs.Syntax.Tiling

/-!
# Collecting nodes below a node

The numbers of the subtrees of children follow one another. So going through the numbers of a subtree
goes from a node to its children in order, and leaving out the numbers of a subtree leaves out just the
nodes of it. What is found below a node is read off its subtree: all nodes of some kinds, or those of
them that stand in no other one.
-/

namespace AlRefactor

open SyntaxTree

variable {text : Text} {n m a b c : Node} {cs : List Node} {ks : List Kind} {nested : Bool}

namespace Laid

open AlRefactor.Tree

variable {es : Array Entry} {parent : Option Nat} {ps qs : List Placed} {id stop : Nat}
  {roots : List Nat} {ts : List Tree}

/-- The numbers that trees take follow one another. -/
theorem tile_numbers (h : Laid text es parent ps id roots ts qs stop) :
    Span.Tile id (roots.filterMap fun i => es[i]?.map fun e => ⟨i, e.next⟩) stop := by
  induction h with
  | nil => rfl
  | leaf _ _ he _ ih =>
      rw [List.filterMap_cons_some (by rw [he]; rfl)]
      exact ⟨rfl, Nat.le_succ _, ih⟩
  | node h he _ _ ih' =>
      have := h.le
      rw [List.filterMap_cons_some (by rw [he]; rfl)]
      exact ⟨rfl, Nat.le_of_succ_le this, ih'⟩

end Laid

/-! ## Numbers of subtrees -/

/-- The numbers of the nodes of a subtree. -/
def Node.numbers (n : Node) : Span := ⟨n.id, n.entry.next⟩

theorem Node.map_numbers_children (n : Node) : n.children.map Node.numbers =
    n.entry.children.filterMap fun i => n.tree.entries[i]?.map fun e => ⟨i, e.next⟩ := by
  rw [Node.children, List.map_filterMap]
  refine List.filterMap_congr fun i _ => ?_
  rw [SyntaxTree.get?]
  split
  · rename_i h; simp [Node.numbers, Node.entry, h]
  · rename_i h; simp [h]

namespace SyntaxTree

theorem tile_numbers_children (hn : n ∈ (parse text).nodes) :
    Span.Tile (n.id + 1) (n.children.map Node.numbers) n.entry.next := by
  obtain ⟨ht, he⟩ := of_mem_nodes hn
  obtain ⟨_, _, _, hl, _⟩ := exists_subtree he
  rw [n.map_numbers_children, ht]
  exact hl.tile_numbers

theorem filterMap_range'_tile {t : SyntaxTree} {i j : Nat} (h : Span.Tile i (cs.map Node.numbers) j)
    (hc : ∀ c ∈ cs, c.tree = t) :
    (List.range' i (j - i)).filterMap t.get? = cs.flatMap Node.subtree := by
  induction cs generalizing i with
  | nil =>
      obtain rfl : i = j := h
      simp
  | cons c cs ih =>
      obtain ⟨rfl, hle, h⟩ := h
      have hle : c.id ≤ c.entry.next := hle
      have hj : c.entry.next ≤ j := h.le
      have hr : List.range' c.id (j - c.id) =
          List.range' c.id (c.entry.next - c.id) ++ List.range' c.entry.next (j - c.entry.next) := by
        have := @List.range'_append_1 c.id (c.entry.next - c.id) (j - c.entry.next)
        rw [Nat.add_sub_cancel' hle] at this
        rw [this]
        congr 1
        omega
      show (List.range' c.id (j - c.id)).filterMap t.get? = _
      rw [hr, List.filterMap_append, List.flatMap_cons, Node.subtree, hc c List.mem_cons_self,
        ← ih h fun d hd => hc d (.tail _ hd)]
      rfl

theorem pairwise_filterMap_get? {t : SyntaxTree} {l : List Nat} (h : l.Pairwise (· < ·)) :
    (l.filterMap t.get?).Pairwise fun a b => a.id < b.id :=
  h.filterMap _ fun i j hij a ha b hb => by rwa [(get?_eq_some.mp ha).2, (get?_eq_some.mp hb).2]

theorem pairwise_subtree (n : Node) : n.subtree.Pairwise fun a b => a.id < b.id :=
  pairwise_filterMap_get? (List.pairwise_lt_range' (s := n.id))

theorem pairwise_nodes (t : SyntaxTree) : t.nodes.Pairwise fun a b => a.id < b.id :=
  pairwise_filterMap_get? List.pairwise_lt_range

/-- A subtree is a node followed by the subtrees of its children. -/
theorem subtree_eq (hn : n ∈ (parse text).nodes) :
    n.subtree = n :: n.children.flatMap Node.subtree := by
  have hlt := id_lt_next hn
  have hs : n.entry.next - n.id = n.entry.next - (n.id + 1) + 1 := by omega
  rw [← filterMap_range'_tile (tile_numbers_children hn) fun c hc => (mem_children.mp hc).1,
    Node.subtree, hs, List.range'_succ,
    List.filterMap_cons_some (get?_eq_some.mpr ⟨rfl, rfl⟩)]

/-- What is taken from the subtrees of some children, in their order, is a part of the subtree. -/
theorem flatMap_sublist_subtree (hn : n ∈ (parse text).nodes) {f : Node → List Node} (hcs : cs.Sublist n.children)
    (hf : ∀ c ∈ cs, (f c).Sublist c.subtree) : (cs.flatMap f).Sublist n.subtree := by
  rw [subtree_eq hn]
  refine .cons _ (.trans ?_ (hcs.flatMap Node.subtree))
  clear hcs
  induction cs with
  | nil => exact List.Sublist.refl _
  | cons c cs ih =>
      obtain ⟨hc, hcs⟩ := List.forall_mem_cons.mp hf
      exact hc.append (ih hcs)

theorem children_sublist_subtree (hn : n ∈ (parse text).nodes) : n.children.Sublist n.subtree := by
  rw [← List.flatMap_singleton' n.children]
  refine flatMap_sublist_subtree hn (List.Sublist.refl _) fun c hc => ?_
  rw [subtree_eq (mem_nodes_of_child hn hc)]
  exact .cons_cons _ (List.nil_sublist _)

/-! ## Going through the numbers -/

end SyntaxTree

/-- What is found at a node and below it. -/
def Node.found (n : Node) (ks : List Kind) (nested : Bool) : List Node :=
  if n.isAny ks then n :: if nested then n.collect ks nested else [] else n.collect ks nested

namespace SyntaxTree

end SyntaxTree

end AlRefactor
