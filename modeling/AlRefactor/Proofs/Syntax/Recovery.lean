import AlRefactor.Proofs.Grammar.Recovery
import AlRefactor.Proofs.Syntax.Order
import AlRefactor.Proofs.Syntax.RoundTrip
import AlRefactor.Proofs.Token.Joints

/-!
# Procedures behind malformed code

Whatever stands in the body of a procedure that is not closed, the procedure behind it is found, unless
a selector at the end of the body takes its first word for a name.
-/

namespace AlRefactor

open AlRefactor.Tree

namespace Lexeme

/-- Lexemes written out with blanks between them are read again where more follows behind a blank. -/
theorem lex_print_append (ls : List Lexeme) (hls : ls ≠ []) (h : ∀ l ∈ ls, l.Genuine) (r : Text) :
    (lex (print ls ++ ' ' :: r)).filter (·.isSignificant) =
      ls ++ (lex (' ' :: r)).filter (·.isSignificant) := by
  match ls with
  | [l] =>
      have hl := h l (List.mem_cons_self ..)
      rw [show print [l] = l.text from rfl, hl.lex_append_blank, List.filter_cons_of_pos hl.significant]
      rfl
  | l :: m :: ls =>
      have hl := h l (List.mem_cons_self ..)
      have hm := h m (List.mem_cons_of_mem _ (List.mem_cons_self ..))
      have ih := lex_print_append _ (List.cons_ne_nil m ls) (fun k hk => h k (List.mem_cons_of_mem l hk)) r
      obtain ⟨u, hu⟩ := exists_print_cons m ls
      rw [print_cons_cons, List.append_assoc, List.cons_append, hl.lex_append_blank, hu, List.append_assoc,
        hm.lex_blank, ← List.append_assoc, ← hu, List.filter_cons_of_pos hl.significant,
        List.filter_cons_of_neg (by decide), ih]
      rfl

end Lexeme

open Lexeme Grammar

/-- Lexemes as the body of a procedure that is not closed, and a procedure behind it. -/
def Text.unfinished (ls : List Lexeme) : Text :=
  "codeunit 1 X \x7b procedure A() begin ".toList ++ print ls ++ " procedure B() begin end; \x7d".toList

namespace SyntaxTree

variable {ls : List Lexeme}

theorem lex_opened (r : Text) :
    (lex ("codeunit 1 X \x7b procedure A() begin".toList ++ ' ' :: r)).filter (·.isSignificant) =
      opened ++ (lex (' ' :: r)).filter (·.isSignificant) := by
  have hw := lex_print_append (opened.take 5) nofun (by decide +kernel)
    ("A() begin".toList ++ ' ' :: r)
  have ha : lex (' ' :: ("A() begin".toList ++ ' ' :: r)) = ⟨.whitespace, [' ']⟩ :: ⟨.ident, ['A']⟩ ::
      ⟨.lParen, ['(']⟩ :: ⟨.rParen, [')']⟩ :: ⟨.whitespace, [' ']⟩ :: ⟨.kwBegin, "begin".toList⟩ ::
      lex (' ' :: r) := by
    rw [lex_cons]
    show _ :: lex ('A' :: ("() begin".toList ++ ' ' :: r)) = _
    rw [lex_cons]
    show _ :: _ :: lex ('(' :: (") begin".toList ++ ' ' :: r)) = _
    rw [lex_cons]
    show _ :: _ :: _ :: lex (')' :: (" begin".toList ++ ' ' :: r)) = _
    rw [lex_cons]
    show _ :: _ :: _ :: _ :: lex (' ' :: ("begin".toList ++ ' ' :: r)) = _
    rw [lex_cons]
    show _ :: _ :: _ :: _ :: _ :: lex ('b' :: ("egin".toList ++ ' ' :: r)) = _
    rw [lex_cons]
    rfl
  rw [ha] at hw
  exact hw

theorem lex_resumed :
    (lex (' ' :: "procedure B() begin end; \x7d".toList)).filter (·.isSignificant) = resumed ∧
      (lex (' ' :: ' ' :: "procedure B() begin end; \x7d".toList)).filter (·.isSignificant) = resumed := by
  decide +kernel

theorem lexemes_unfinished (h : ∀ l ∈ ls, l.Genuine) :
    (Text.unfinished ls).significant.map (·.toLexeme) = opened ++ (ls ++ resumed) := by
  have ho : "codeunit 1 X \x7b procedure A() begin ".toList =
      "codeunit 1 X \x7b procedure A() begin".toList ++ [' '] := by decide
  have hr : " procedure B() begin end; \x7d".toList =
      ' ' :: "procedure B() begin end; \x7d".toList := by decide
  have ht : Text.unfinished ls = "codeunit 1 X \x7b procedure A() begin ".toList ++ print ls ++
    " procedure B() begin end; \x7d".toList := rfl
  rw [Text.lexemes_significant, ht, ho, hr, List.append_assoc, List.append_assoc,
    List.singleton_append, lex_opened, List.append_cancel_left_eq]
  cases ls with
  | nil =>
      rw [show print [] = [] from rfl, List.nil_append, List.nil_append]
      exact lex_resumed.2
  | cons l ls =>
      have hl := h l (List.mem_cons_self ..)
      obtain ⟨u, hu⟩ := exists_print_cons l ls
      rw [hu, List.append_assoc, hl.lex_blank, ← List.append_assoc, ← hu,
        List.filter_cons_of_neg (by decide), lex_print_append _ (List.cons_ne_nil l ls) h, lex_resumed.1]

/-! ## Names -/

/-- A node around a single other one has its text. -/
theorem text_of_child {text : Text} {n m : Node} (hn : n ∈ (parse text).nodes) (hi : n.id ≠ 0)
    (hc : n.children = [m]) : n.text = m.text := by
  obtain ⟨ht, he⟩ := of_mem_nodes hn
  have hm : m.tree = n.tree := (mem_children.mp (hc ▸ List.mem_singleton_self m)).1
  obtain ⟨_, _, hl, _⟩ := exists_laid text
  obtain ⟨_, _, _, _, _, _, hs⟩ := hl.single (Grammar.composite_declarations _) he (by omega)
    (Array.getElem?_eq_some_iff.mp he).1
  have hb := n.map_entry_children
  rw [hc, ht] at hb
  have hsp : n.span = m.span := by
    cases hs with
    | leaf _ _ hx =>
        rw [Option.some.inj (he.symm.trans hx)] at hb
        cases hb
    | @node _ _ _ below _ _ _ _ _ _ _ _ _ hx =>
        have hx := Option.some.inj (he.symm.trans hx)
        have hb : [m.entry] = below.filterMap ((parse text).entries[·]?) := by rw [hx] at hb; exact hb
        rw [Node.span, hx, Entry.closed, ← hb]
        simp [Entry.around, Span.join, Node.span]
  rw [Node.text, Node.text, hm, hsp]

/-- A procedure that shows a keyword and a name has this name. -/
theorem name_of_shownBy {text : Text} {n : Node} {l a : Lexeme} {ts : List Tree}
    (hn : n ∈ (parse text).nodes) (h : (Tree.node NodeKind.methodDeclaration
      (.leaf l :: .node NodeKind.identifierName [.leaf a] :: ts)).ShownBy n) : n.name = some a.text := by
  obtain ⟨hk, hs⟩ := h
  obtain ⟨w, cs, hc, ⟨hwk, -⟩, hs⟩ := hs.exists_cons
  obtain ⟨i, cs, rfl, ⟨hik, hi⟩, -⟩ := hs.exists_cons
  obtain ⟨j, js, hic, ⟨-, hj, -⟩, rfl⟩ := hi.exists_cons
  have him : i ∈ n.children := by rw [hc]; simp
  have hlt := (parent_of_mem_children hn him).1
  have hx : n.child? NodeKind.identifierName = some i := by
    rw [Node.child?, hc, List.find?_cons_of_neg (by simp [Node.is, hwk]),
      List.find?_cons_of_pos (by simp [Node.is, hik])]
  rw [name_eq hn, hk, hx, Option.map_some, text_of_child (mem_nodes_of_child hn him) (by omega) hic, hj]
  rfl

/-- Lexemes without `end`, without what members start with and without a selector at their end, whatever
they are, do not hide the procedure behind them. -/
theorem finds_procedures (hl : ∀ l ∈ ls, l.Genuine)
    (hk : ∀ l ∈ ls, l.kind ∉ TokenKind.kwEnd :: memberStarts)
    (hs : ∀ l ∈ ls.getLast?, l.kind ≠ .dot ∧ l.kind ≠ .colonColon) :
    ∃ o ∈ (parse (Text.unfinished ls)).root.children, o.kind = NodeKind.codeunitObject ∧
      (o.childrenOf NodeKind.methodDeclaration).map (·.name) = [some ['A'], some ['B']] := by
  obtain ⟨ts, us, hm⟩ := read_object_unfinished (b := ⟨ls, resumed, hs, fun _ => rfl⟩) hk rfl
  obtain ⟨-, hr⟩ := root_shows (Text.unfinished ls)
  rw [forest, lexemes_unfinished hl, hm] at hr
  obtain ⟨o, _, hc, ⟨hok, ho⟩, -⟩ := hr.exists_cons
  have hom : o ∈ (parse (Text.unfinished ls)).root.children := by rw [hc]; simp
  have hon := mem_nodes_of_child (mem_nodes.mpr rfl) hom
  -- The children one by one: the header, the brace, the two procedures and the brace behind them.
  obtain ⟨c₁, _, hos, h₁, ho⟩ := ho.exists_cons
  obtain ⟨c₂, _, rfl, h₂, ho⟩ := ho.exists_cons
  obtain ⟨c₃, _, rfl, h₃, ho⟩ := ho.exists_cons
  obtain ⟨c₄, _, rfl, h₄, ho⟩ := ho.exists_cons
  obtain ⟨a, _, rfl, ha, ho⟩ := ho.exists_cons
  obtain ⟨b, _, rfl, hb, ho⟩ := ho.exists_cons
  obtain ⟨c₅, _, rfl, h₅, rfl⟩ := ho.exists_cons
  have hch (m : Node) (hm : m ∈ o.children) := mem_nodes_of_child hon hm
  rw [hos] at hch
  refine ⟨o, hom, hok, ?_⟩
  have hof : o.childrenOf NodeKind.methodDeclaration = [a, b] := by
    simp [Node.childrenOf, hos, Node.is, h₁.1, h₂.1, h₃.1, h₄.1, ha.1, hb.1, h₅.1]
  rw [hof, List.map_cons, List.map_cons, name_of_shownBy (hch a (by simp)) ha,
    name_of_shownBy (hch b (by simp)) hb]
  rfl

/-- A selector takes the keyword `procedure` for a name, so the procedure behind it is lost. -/
theorem selector_hides : let ls : List Lexeme := [⟨.ident, ['x']⟩, ⟨.dot, ['.']⟩]
    (∀ l ∈ ls, l.Genuine) ∧ (∀ l ∈ ls, l.kind ∉ TokenKind.kwEnd :: memberStarts) ∧
      ∀ n ∈ (parse (Text.unfinished ls)).nodes, n.name ≠ some ['B'] := by
  decide +kernel

end SyntaxTree

end AlRefactor
