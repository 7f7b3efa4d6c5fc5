import AlRefactor.Grammar.File
import AlRefactor.Syntax.Tree

/-!
# What productions read, as trees

The same productions that emit events make trees. For each way to put productions together there is
an equation for the trees it makes, and no production loses a lexeme or takes one out of order.
-/

namespace AlRefactor

namespace Tree

@[simp]
theorem leavesOf_append (ts us : List Tree) : leavesOf (ts ++ us) = leavesOf ts ++ leavesOf us := by
  induction ts with
  | nil => rfl
  | cons t ts ih => simp only [List.cons_append, leavesOf, ih, List.append_assoc]

end Tree

namespace Production

open AlRefactor.Tree

/-- Results as trees. -/
def Assembly.trees : Assembly (List Tree) where
  nothing := []
  both := (· ++ ·)
  token l := (l.map Tree.leaf).toList
  node k ts := [.node k ts]
  adopt k first ts := [.node k (first ++ ts)]

/-- The trees of a production. -/
def read (p : Production) : Cursor → Outcome (List Tree) := p.run .trees

/-! ## Equations -/

variable (p q : Production) (c : Cursor)

@[simp] theorem read_skip : skip.read c = ⟨[], false, [], c⟩ := rfl

@[simp] theorem read_report (problem : Problem) :
    (report problem).read c = ⟨[], false, [(problem, c.read)], c⟩ := rfl

@[simp] theorem read_take_nil (n : Nat) : take.read ⟨n, []⟩ = ⟨[], false, [], ⟨n, []⟩⟩ := rfl

@[simp] theorem read_take_cons (n : Nat) (l : Lexeme) (ls : List Lexeme) :
    take.read ⟨n, l :: ls⟩ = ⟨[.leaf l], false, [], ⟨n + 1, ls⟩⟩ := rfl

@[simp] theorem read_append : (p ++ q).read c =
    ⟨(p.read c).made ++ (q.read (p.read c).rest).made, false,
      (p.read c).problems ++ (q.read (p.read c).rest).problems,
      (q.read (p.read c).rest).rest⟩ := rfl

@[simp] theorem read_look (next : Cursor → Production) : (look next).read c = (next c).read c := rfl

@[simp] theorem read_choose (test : Cursor → Bool) :
    (choose test p q).read c = if test c then p.read c else q.read c := by
  simp only [choose, read_look]; split <;> rfl

@[simp] theorem read_mark (kind : Cursor → Kind) : (mark p kind q).read c =
    ⟨[.node (kind (p.read c).rest) ((p.read c).made ++ (q.read (p.read c).rest).made)], true,
      (p.read c).problems ++ (q.read (p.read c).rest).problems,
      (q.read (p.read c).rest).rest⟩ := rfl

@[simp] theorem read_node (k : Kind) : (node k p).read c =
    ⟨[.node k (p.read c).made], true, (p.read c).problems, (p.read c).rest⟩ := by
  simp [node]

theorem read_whileAt (test : Cursor → Bool) :
    (whileAt test p).read c = Assembly.trees.rounds test p.read c.ahead.length c := rfl

theorem read_whileAt_of_not {test : Cursor → Bool} (h : test c = false) :
    (whileAt test p).read c = ⟨[], false, [], c⟩ := by
  rw [read_whileAt]
  cases c.ahead.length <;> simp [Assembly.rounds, Assembly.idle, h, Assembly.trees]

theorem read_grow (kind : Cursor → Option NodeKind) : (grow p kind q).read c =
    if (p.read c).single then
      Assembly.trees.grown kind q.read (p.read c).rest.ahead.length (p.read c)
    else p.read c := rfl

end Production

end AlRefactor
