import AlRefactor.Proofs.Grammar.Declarations
import AlRefactor.Proofs.Syntax.Leaves

/-!
# A text without a problem is a derivation

If nothing is wrong with a text, the children of every node of it are what the rules of the grammar
say, and nothing else stands between them.
-/

namespace AlRefactor

open AlRefactor.Tree

/-- A child, as the rules see it. -/
def Node.symbol (n : Node) : Symbol := .ofNode n.kind (n.children.map (·.kind))

def Entry.symbol (es : Array Entry) (e : Entry) : Symbol :=
  .ofNode e.kind ((e.children.filterMap (es[·]?)).map (·.kind))

namespace Laid

variable {text : Text} {es : Array Entry} {parent : Option Nat} {ps qs : List Placed}
  {id stop : Nat} {roots : List Nat} {ts : List Tree}

theorem kinds (h : Laid text es parent ps id roots ts qs stop) :
    (roots.filterMap (es[·]?)).map (·.kind) = ts.map Tree.kind := by
  induction h with
  | nil => rfl
  | leaf _ _ he _ ih | node _ he _ _ ih =>
      rw [List.filterMap_cons_some he, List.map_cons, List.map_cons, ih]
      rfl

theorem symbols (h : Laid text es parent ps id roots ts qs stop) :
    (roots.filterMap (es[·]?)).map (Entry.symbol es) = ts.map Tree.symbol := by
  induction h with
  | nil => rfl
  | leaf _ _ he _ ih =>
      rw [List.filterMap_cons_some he, List.map_cons, List.map_cons, ih]
      rfl
  | node h he _ _ ih =>
      rw [List.filterMap_cons_some he, List.map_cons, List.map_cons, ih]
      simp only [Entry.symbol, Entry.closed, h.kinds, Tree.symbol]

end Laid

/-! ## Nodes and entries -/

namespace Node

theorem map_entry_children (n : Node) :
    n.children.map (·.entry) = n.entry.children.filterMap (n.tree.entries[·]?) := by
  rw [children, List.map_filterMap]
  refine List.filterMap_congr fun i _ => ?_
  rw [SyntaxTree.get?]
  split
  · rename_i h; simp [Node.entry, h]
  · rename_i h; simp [h]

theorem tree_of_mem_children {n m : Node} (h : m ∈ n.children) : m.tree = n.tree := by
  obtain ⟨i, _, hi⟩ := List.mem_filterMap.mp h
  rw [SyntaxTree.get?] at hi
  split at hi
  · cases hi; rfl
  · cases hi

theorem symbol_eq (n : Node) : n.symbol = n.entry.symbol n.tree.entries := by
  rw [symbol, Entry.symbol, ← map_entry_children, List.map_map]
  rfl

theorem map_symbol_children (n : Node) : n.children.map (·.symbol) =
    (n.entry.children.filterMap (n.tree.entries[·]?)).map (Entry.symbol n.tree.entries) := by
  rw [← map_entry_children, List.map_map]
  refine List.map_congr_left fun m hm => ?_
  rw [symbol_eq, tree_of_mem_children hm]
  rfl

end Node

namespace SyntaxTree

/-- The problems of a text are those that its declarations note. -/
theorem problems_reading (text : Text) : (reading text).2 =
    (Grammar.declarations.read ⟨0, text.significant.map (·.toLexeme)⟩).problems := by
  have hp := (Production.agrees Grammar.file ⟨0, text.significant.map (·.toLexeme)⟩).problems
  rw [Grammar.file, Production.read_node] at hp
  exact hp

/-- Nothing is wrong with a text in which no production notes a problem. -/
theorem ok_iff (text : Text) : (parse text).ok ↔
    (Grammar.declarations.read ⟨0, text.significant.map (·.toLexeme)⟩).problems = [] := by
  obtain ⟨_, _, _, _, _, hu⟩ := exists_laid text
  rw [ok, parse, List.isEmpty_iff, hu, problems_reading]
  simp

theorem rule_forest {text : Text} (h : (parse text).ok) :
    Everywhere Rule (.node NodeKind.compilationUnit (forest text)) := by
  have hp := Grammar.yields_declarations _ ((ok_iff text).mp h)
  exact ⟨hp.2, hp.1⟩

/-- If nothing is wrong with a text, a node is a token without children or has the children that its
production allows. -/
theorem token_or_rule {text : Text} {n : Node} (h : (parse text).ok) (hn : n ∈ (parse text).nodes) :
    (∃ k : TokenKind, n.kind = k ∧ n.children = []) ∨
      ∃ k : NodeKind, n.kind = k ∧ n.children.map (·.symbol) ∈ k.production.matches' := by
  obtain ⟨ht, he⟩ := of_mem_nodes hn
  obtain ⟨ps, us, qs, hl, _, ⟨l, hk, hc⟩ | hr⟩ := exists_subtree_of (rule_forest h) he
  · exact .inl ⟨l.kind, hk, by rw [Node.children, hc]; rfl⟩
  · right
    cases hk : n.entry.kind with
    | token k => rw [hk] at hr; exact hr.elim
    | node k =>
        rw [hk] at hr
        exact ⟨k, hk, by rwa [Node.map_symbol_children, ht, hl.symbols]⟩

theorem matches_of_kind {text : Text} {n : Node} (h : (parse text).ok) (hn : n ∈ (parse text).nodes)
    {k : NodeKind} (hk : n.kind = k) : n.children.map (·.symbol) ∈ k.production.matches' := by
  obtain ⟨l, hl, _⟩ | ⟨l, hl, hm⟩ := token_or_rule h hn
  · cases hl.symm.trans hk
  · cases hl.symm.trans hk
    exact hm

/-- If nothing is wrong with a text, every composite node has the children that its production
allows, in order and nothing else, and tokens have none. -/
theorem children_derived {text : Text} (h : (parse text).ok) :
    ∀ n ∈ (parse text).nodes, (n.kind.isToken → n.children = []) ∧
      ∀ k : NodeKind, n.kind = k → n.children.map (·.symbol) ∈ k.production.matches' := by
  intro n hn
  obtain ⟨l, hl, hc⟩ | ⟨k, hk, hr⟩ := token_or_rule h hn
  · refine ⟨fun _ => hc, fun k hk => ?_⟩
    cases hl.symm.trans hk
  · refine ⟨fun ht => ?_, fun j hj => ?_⟩
    · rw [hk] at ht
      cases ht
    · cases hk.symm.trans hj
      exact hr

/-- A file with one procedure. -/
theorem children_derived_procedure :
    (parse "codeunit 1 A \x7b procedure B(C: Text) begin x := 1; end; \x7d".toList).ok ∧
      ∀ n ∈ (parse "codeunit 1 A \x7b procedure B(C: Text) begin x := 1; end; \x7d".toList).nodes,
        (n.kind.isToken → n.children = []) ∧
          ∀ k : NodeKind, n.kind = k → n.children.map (·.symbol) ∈ k.production.matches' := by
  have hl : (Lexeme.lex "codeunit 1 A \x7b procedure B(C: Text) begin x := 1; end; \x7d".toList).filter
      (·.isSignificant) =
        [⟨.ident, "codeunit".toList⟩, ⟨.intLiteral, ['1']⟩, ⟨.ident, ['A']⟩, ⟨.lBrace, ['\x7b']⟩,
         ⟨.kwProcedure, "procedure".toList⟩, ⟨.ident, ['B']⟩, ⟨.lParen, ['(']⟩, ⟨.ident, ['C']⟩,
         ⟨.colon, [':']⟩, ⟨.ident, "Text".toList⟩, ⟨.rParen, [')']⟩, ⟨.kwBegin, "begin".toList⟩,
         ⟨.ident, ['x']⟩, ⟨.assign, ":=".toList⟩, ⟨.intLiteral, ['1']⟩, ⟨.semicolon, [';']⟩,
         ⟨.kwEnd, "end".toList⟩, ⟨.semicolon, [';']⟩, ⟨.rBrace, ['\x7d']⟩] := by decide +kernel
  have h : (parse "codeunit 1 A \x7b procedure B(C: Text) begin x := 1; end; \x7d".toList).ok := by
    rw [ok_iff, Text.lexemes_significant, hl]
    decide +kernel
  exact ⟨h, children_derived h⟩

end SyntaxTree

end AlRefactor
