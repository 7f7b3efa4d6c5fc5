import AlRefactor.Proofs.Grammar.CompleteBodies
import AlRefactor.Proofs.Syntax.Derivation
import AlRefactor.Proofs.Token.Printing

/-!
# Written-out bodies are read back

The nodes of a text show the trees that the grammar made of it. A body that is written out with
blanks between its lexemes is shown by the nodes of this text, and nothing is wrong with it.
-/

namespace AlRefactor

open AlRefactor.Tree

/-! ## Nodes that show trees -/

mutual
/-- A node shows a tree: it has the kind of the tree, the text of a leaf, and children that show
the trees below. -/
def Tree.ShownBy : Tree → Node → Prop
  | .leaf l, n => n.kind = l.kind ∧ n.text = l.text ∧ n.children = []
  | .node k ts, n => n.kind = k ∧ ShownByAll ts n.children

def Tree.ShownByAll : List Tree → List Node → Prop
  | [], ns => ns = []
  | t :: ts, n :: ns => ShownBy t n ∧ ShownByAll ts ns
  | _ :: _, [] => False
end

theorem Tree.ShownByAll.exists_cons {t : Tree} {ts : List Tree} {ns : List Node}
    (h : ShownByAll (t :: ts) ns) : ∃ m ms, ns = m :: ms ∧ t.ShownBy m ∧ ShownByAll ts ms := by
  cases ns with
  | nil => exact h.elim
  | cons m ms => exact ⟨m, ms, rfl, h⟩

theorem SyntaxTree.get?_of_entry {t : SyntaxTree} {id : Nat} {e : Entry}
    (h : t.entries[id]? = some e) : ∃ n, t.get? id = some n ∧ n.entry = e ∧ n.tree = t := by
  obtain ⟨hi, rfl⟩ := Array.getElem?_eq_some_iff.mp h
  exact ⟨⟨t, id, hi⟩, dif_pos hi, rfl, rfl⟩

theorem Placed.token_mem_ofTokens (leading : Nat) (ts : List Token) :
    ∀ p ∈ ofTokens leading ts, p.token ∈ ts := by
  induction ts generalizing leading with
  | nil => nofun
  | cons t ts ih =>
      have ih := fun n p hp => List.mem_cons_of_mem t (ih n p hp)
      intro p hp
      rw [ofTokens] at hp
      split at hp
      all_goals
        rcases List.mem_cons.mp hp with rfl | hp
        · exact List.mem_cons_self ..
        · exact ih _ p hp

namespace Laid

variable {text : Text} {parent : Option Nat} {ps qs : List Placed} {id stop : Nat}
  {roots : List Nat} {ts : List Tree}

theorem subset {es : Array Entry} (h : Laid text es parent ps id roots ts qs stop) : qs ⊆ ps := by
  induction h with
  | nil => exact List.Subset.refl _
  | leaf hp _ _ _ ih =>
      refine List.Subset.trans ih fun p hm => ?_
      exact (List.dropWhile_suffix _).subset (hp ▸ List.mem_cons_of_mem _ hm)
  | node _ _ _ ih ih' => exact List.Subset.trans ih' ih

theorem shown (h : Laid text (SyntaxTree.parse text).entries parent ps id roots ts qs stop)
    (hp : ∀ p ∈ ps, p.token ∈ text.tokens) :
    ShownByAll ts (roots.filterMap (SyntaxTree.parse text).get?) := by
  induction h with
  | nil => exact rfl
  | @leaf _ ps _ _ l _ q qs _ _ hq hl he h ih =>
      have hm : ∀ p ∈ q :: qs, p.token ∈ text.tokens := fun p hm =>
        hp p ((List.dropWhile_suffix _).subset (hq ▸ hm))
      obtain ⟨n, hn, hne, hnt⟩ := SyntaxTree.get?_of_entry he
      rw [List.filterMap_cons_some hn]
      refine ⟨⟨?_, ?_, ?_⟩, ih fun p hm' => hm p (List.mem_cons_of_mem _ hm')⟩
      · rw [Node.kind, hne]
      · rw [Node.text, Node.span, hne, hnt, ← hl]
        exact Text.extract_token (hm q (List.mem_cons_self ..))
      · rw [Node.children, hne]; rfl
  | node h he _ ih ih' =>
      obtain ⟨n, hn, hne, hnt⟩ := SyntaxTree.get?_of_entry he
      rw [List.filterMap_cons_some hn]
      refine ⟨⟨?_, ?_⟩, ih' fun p hm => hp p (h.subset hm)⟩
      · rw [Node.kind, hne]; rfl
      · rw [Node.children, hne, hnt]; exact ih hp

end Laid

namespace SyntaxTree

/-- The nodes of a text show what the grammar made of it. -/
theorem root_shows (text : Text) :
    (Tree.node NodeKind.compilationUnit (forest text)).ShownBy (parse text).root := by
  obtain ⟨roots, _, hl, he, _⟩ := exists_laid text
  have hr : (parse text).root.entry = _ := Option.some.inj
    ((Array.getElem?_eq_getElem (parse text).entries_pos).symm.trans he)
  refine ⟨by rw [Node.kind, hr], ?_⟩
  rw [Node.children, hr]
  exact hl.shown fun p hp => Placed.token_mem_ofTokens _ _ p hp

/-! ## Round trip -/

theorem genuine_host {ss : List Tree} (h : ∀ l ∈ leavesOf ss, l.Genuine) :
    ∀ l ∈ (host ss).leaves, l.Genuine := by
  have hh : ∀ l ∈ (host []).leaves, l.Genuine := by decide +kernel
  intro l hl
  have hl : l ∈ (host []).leaves ∨ l ∈ leavesOf ss := by
    simp only [host, procedure, Tree.block, leaves, leavesOf, leavesOf_append, List.cons_append,
      List.mem_append, List.mem_cons] at hl ⊢
    tauto
  exact hl.elim (hh l) (h l)

/-- A body made of the forms of statements and expressions, written out with its lexemes separated
by blanks in a procedure, is read back: nothing is wrong with the text, and its nodes show the
body. -/
theorem parse_print {ss : List Tree} (hs : ∀ s ∈ ss, s.Statement)
    (hl : ∀ l ∈ leavesOf ss, l.Genuine) :
    (parse (Lexeme.print (host ss).leaves)).ok ∧
      (Tree.node NodeKind.compilationUnit [host ss]).ShownBy
        (parse (Lexeme.print (host ss).leaves)).root := by
  have hlex : (Lexeme.print (host ss).leaves).significant.map (·.toLexeme) =
      leavesOf [host ss] ++ [] := by
    rw [Text.lexemes_significant, Lexeme.lex_print (genuine_host hl)]
    simp [leavesOf]
  have hr := (Grammar.reads_host hs).outcome 0
  refine ⟨?_, ?_⟩
  · rw [ok_iff, hlex, hr.2]
  · have := root_shows (Lexeme.print (host ss).leaves)
    rwa [forest, hlex, hr.1] at this

/-- `if a.b(1) < -c then begin end else begin exit; end;` -/
def conditional : Tree :=
  .node NodeKind.ifStatement
    [.leaf ⟨.kwIf, "if".toList⟩,
      .node (operation .lt)
        [.node NodeKind.invocationExpression
          [.node NodeKind.memberAccessExpression
            [.identifier ⟨.ident, ['a']⟩, .leaf ⟨.dot, ['.']⟩, .identifier ⟨.ident, ['b']⟩],
          arguments [.node NodeKind.literalExpression [.leaf ⟨.intLiteral, ['1']⟩]]],
        .leaf ⟨.lt, ['<']⟩,
        .node NodeKind.unaryExpression [.leaf ⟨.minus, ['-']⟩, .identifier ⟨.ident, ['c']⟩]],
      .leaf ⟨.kwThen, "then".toList⟩, .block "begin".toList [] "end".toList,
      .node NodeKind.elseClause
        [.leaf ⟨.kwElse, "else".toList⟩,
          separatedBlock "begin".toList
            [.node NodeKind.exitStatement [.leaf ⟨.kwExit, "exit".toList⟩, semicolon]]
            "end".toList]]

theorem statement_conditional : conditional.Statement := by
  refine .ifElse (.binary (o := ⟨.lt, ['<']⟩) rfl (.call ?_ ?_ fun _ he => ?_) nofun ?_ nofun) nofun
    (.block fun _ hd => List.mem_singleton.mp hd ▸ .exit) rfl
  · exact .member (.name rfl) ⟨_, by decide, rfl⟩ rfl
  · exact ⟨_, by decide, rfl⟩
  · rw [List.mem_singleton.mp he]; exact .literal rfl
  · exact .unary rfl (.name rfl) rfl

/-- A body with one conditional statement. -/
theorem parse_print_conditional :
    (∀ s ∈ [conditional], s.Statement) ∧ (∀ l ∈ leavesOf [conditional], l.Genuine) ∧
      (parse (Lexeme.print (host [conditional]).leaves)).ok ∧
        (Tree.node NodeKind.compilationUnit [host [conditional]]).ShownBy
          (parse (Lexeme.print (host [conditional]).leaves)).root := by
  have hs : ∀ s ∈ [conditional], s.Statement := fun _ hs =>
    List.mem_singleton.mp hs ▸ statement_conditional
  have hl : ∀ l ∈ leavesOf [conditional], l.Genuine := by decide +kernel
  exact ⟨hs, hl, parse_print hs hl⟩

end SyntaxTree

end AlRefactor
