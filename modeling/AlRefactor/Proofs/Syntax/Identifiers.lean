import AlRefactor.Proofs.Grammar.Identifiers
import AlRefactor.Proofs.Syntax.Layout
import AlRefactor.Proofs.Syntax.Precedence
import AlRefactor.Proofs.Syntax.Recovery

/-!
# Identifiers of a text, and the names of its declarations

Every identifier of a text, valid or not, is around one token: a name, or a keyword directly behind `.` or
`::`. A brace is the exception, and only where brackets are reported not to fit. The name that is kept of a
declaration is the text of such a token.
-/

namespace AlRefactor

open AlRefactor.Tree Production

namespace Tree

theorem ShownByAll.exists_append {ts : List Tree} {as bs : List Node} {n : Node} (h : ShownByAll ts (as ++ n :: bs)) :
    ∃ us t vs, ts = us ++ t :: vs ∧ ShownByAll us as ∧ t.ShownBy n := by
  induction as generalizing ts with
  | nil =>
      cases ts with
      | nil => cases h
      | cons t ts => exact ⟨[], t, ts, rfl, rfl, h.1⟩
  | cons a as ih =>
      cases ts with
      | nil => cases h
      | cons t ts =>
          obtain ⟨us, u, vs, rfl, hs, hu⟩ := ih h.2
          exact ⟨t :: us, u, vs, rfl, ⟨h.1, hs⟩, hu⟩

theorem ShownByAll.exists_concat {us : List Tree} {t : Tree} {ns : List Node} (h : ShownByAll (us ++ [t]) ns) :
    ∃ as n, ns = as ++ [n] ∧ ShownByAll us as ∧ t.ShownBy n := by
  induction us generalizing ns with
  | nil =>
      obtain ⟨n, ms, rfl, hn, hms⟩ := h.exists_cons
      obtain rfl : ms = [] := hms
      exact ⟨[], n, rfl, rfl, hn⟩
  | cons u us ih =>
      obtain ⟨m, ms, rfl, hm, hms⟩ := ShownByAll.exists_cons h
      obtain ⟨as, n, rfl, hs, hn⟩ := ih hms
      exact ⟨m :: as, n, rfl, ⟨hm, hs⟩, hn⟩

end Tree

/-- No problem with brackets is reported. -/
def SyntaxTree.BracketsFit (t : SyntaxTree) : Prop := ∀ d ∈ t.diagnostics, d.problem ≠ .unbalancedBrackets

namespace Node

/-- A node stands directly behind `.` or `::`. -/
def FollowsSelector (n : Node) : Prop :=
  ∃ p s before after, n.parent = some p ∧ p.children = before ++ s :: n :: after ∧
    (s.kind = TokenKind.dot ∨ s.kind = TokenKind.colonColon)

/-- An identifier and the one token that it is around. -/
structure Identifies (n m : Node) : Prop where
  children : n.children = [m]
  text : n.text = m.text
  kind : ∃ k : TokenKind, m.kind = k ∧ (k.isName ∨ (k.isKeyword ∧ n.FollowsSelector) ∨
    (¬n.tree.BracketsFit ∧ k ∈ [.lBrace, .rBrace]))

end Node

namespace SyntaxTree

variable {text : Text} {n : Node}

/-- All identifiers among the trees of a text are some. -/
theorem identified_forest (text : Text) :
    Everywhere (fun _ => Identifying (parse text).BracketsFit)
      (.node NodeKind.compilationUnit (forest text)) := by
  refine Production.Identifies.declarations fun hf x hx hb => ?_
  have hx : Problem.unbalancedBrackets ∈ (parse text).diagnostics.map (·.problem) := by
    rw [map_problem_diagnostics, problems_reading]
    exact hb ▸ List.mem_map_of_mem hx
  obtain ⟨d, hd, hp⟩ := List.mem_map.mp hx
  exact hf d hd hp

/-- An identifier among the children of a node that shows a tree. -/
theorem identifies_of_child {a : Node} {k : Kind} {ts : List Tree} (ha : a ∈ (parse text).nodes)
    (hs : (Tree.node k ts).ShownBy a) (ht : Identifying (parse text).BracketsFit ts) (hn : n ∈ a.children)
    (hk : n.kind = NodeKind.identifierName) : ∃ m, n.Identifies m := by
  obtain ⟨before, after, hc⟩ := List.append_of_mem hn
  obtain ⟨us, t, vs, rfl, hus, hshown⟩ := ShownByAll.exists_append (hc ▸ hs.2)
  have htk : t.kind = NodeKind.identifierName := hshown.kind.symm.trans hk
  cases t with
  | leaf => cases htk
  | node j below =>
      obtain rfl : j = NodeKind.identifierName := htk
      obtain ⟨l, rfl, hl⟩ := ht us below vs rfl
      obtain ⟨m, ms, hm, ⟨hmk, -⟩, hms⟩ := hshown.2.exists_cons
      obtain rfl : ms = [] := hms
      obtain ⟨hlt, hp⟩ := parent_of_mem_children ha hn
      have hnn := mem_nodes_of_child ha hn
      refine ⟨m, hm, text_of_child hnn (by omega) hm, l.kind, hmk, ?_⟩
      rw [mem_nodes.mp hnn]
      refine hl.imp_right (Or.imp_left fun ⟨hkw, s, hlast, hsel⟩ => ⟨hkw, ?_⟩)
      -- The sibling in front of the identifier shows the selector.
      obtain ⟨us, rfl⟩ := List.getLast?_eq_some_iff.mp hlast
      obtain ⟨before, w, rfl, -, hw⟩ := hus.exists_concat
      refine ⟨a, w, before, after, hp, by rw [hc, List.append_assoc]; rfl, ?_⟩
      rw [hw.kind]
      cases s with
      | node => cases hsel
      | leaf s =>
          have hs : s.kind = .dot ∨ s.kind = .colonColon := by simpa [isSelector] using hsel
          exact hs.imp (congrArg Kind.token) (congrArg Kind.token)

/-- Every identifier of a text is around one token, which is a name or, directly behind `.` or `::`, a
keyword. Only where brackets are reported it can be a brace. -/
theorem exists_identifies (hn : n ∈ (parse text).nodes) (hk : n.kind = NodeKind.identifierName) :
    ∃ m, n.Identifies m := by
  have hr : (parse text).root ∈ (parse text).nodes := mem_nodes.mpr rfl
  -- Down from the root, every node shows a tree whose identifiers are some, and is one itself if it is any.
  have h := below_induction (Q := fun n => (∃ t, t.ShownBy n ∧
      Everywhere (fun _ => Identifying (parse text).BracketsFit) t) ∧
      (n.kind = NodeKind.identifierName → ∃ m, n.Identifies m)) ?_ hr hn (below_root hn)
    ⟨⟨_, root_shows text, identified_forest text⟩, fun hk => ?_⟩
  · exact h.2 hk
  · rintro a ha ⟨⟨t, hs, ht⟩, -⟩ c hc
    obtain ⟨k, ts, rfl, u, hu, hus⟩ := hs.child hc
    exact ⟨⟨u, hus, ht.2.of_mem hu⟩, identifies_of_child ha hs ht.1 hc⟩
  · have hroot := (root_shows text).kind.symm.trans hk
    cases hroot

/-- The name of a declaration is the text of a token that one of its identifiers is around. -/
theorem name_identifies (hn : n ∈ (parse text).nodes) :
    ∀ s ∈ n.name, ∃ i ∈ n.children, ∃ m, i.Identifies m ∧ s = m.text := by
  intro s hs
  rw [name_eq hn] at hs
  split at hs
  · obtain ⟨i, hi, rfl⟩ := Option.map_eq_some_iff.mp hs
    obtain ⟨hi, hk⟩ := Node.mem_of_child? hi
    obtain ⟨m, hm⟩ := exists_identifies (mem_nodes_of_child hn hi) hk
    exact ⟨i, hi, m, hm, hm.text⟩
  · cases hs

/-- A brace in an attribute cuts it off, and becomes the name of the variable that the lookahead announced
as `x`. -/
theorem identifies_brace :
    ∃ n ∈ (parse "codeunit 1 A \x7b var [A \x7b ] x: Integer; \x7d".toList).nodes,
      n.kind = NodeKind.variableDeclaration ∧ n.name = some ['\x7b'] := by
  decide +kernel

end SyntaxTree

end AlRefactor
