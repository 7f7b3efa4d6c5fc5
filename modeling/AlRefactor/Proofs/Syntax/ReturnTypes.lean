import AlRefactor.Proofs.Grammar.ReturnTypes
import AlRefactor.Proofs.Syntax.Precedence
import AlRefactor.Proofs.Syntax.Twins

/-!
# A type as a parameter type and as a return type

What stands for the type of a parameter stands for the type of a return value in front of a body, unless it
ends with a clause: then the type of the return value takes the body, and nothing is noted.
-/

namespace AlRefactor

open AlRefactor.Tree Grammar

/-! ## Nodes along a path -/

/-- The first child of a kind, of that the first child of the next kind, and so on. -/
def Node.descend? : Node → List Kind → Option Node
  | n, [] => some n
  | n, k :: ks => (n.child? k).bind (descend? · ks)

namespace Tree

def child? : Tree → Kind → Option Tree
  | .leaf _, _ => none
  | .node _ ts, k => ts.find? (·.kind == k)

def descend? : Tree → List Kind → Option Tree
  | t, [] => some t
  | t, k :: ks => (t.child? k).bind (descend? · ks)

theorem ShownByAll.find? {ts : List Tree} {ns : List Node} (h : ShownByAll ts ns) (k : Kind) :
    Option.Rel ShownBy (ts.find? (·.kind == k)) (ns.find? (·.is k)) := by
  induction ts generalizing ns with
  | nil =>
      obtain rfl : ns = [] := h
      exact .none
  | cons t ts ih =>
      obtain ⟨n, ns, rfl, hn, hns⟩ := h.exists_cons
      rw [List.find?_cons, List.find?_cons, Node.is, hn.kind]
      split
      · exact .some hn
      · exact ih hns

theorem ShownBy.child? {t : Tree} {n : Node} (h : t.ShownBy n) (k : Kind) :
    Option.Rel ShownBy (t.child? k) (n.child? k) := by
  cases t with
  | leaf l =>
      rw [Node.child?, h.2.2]
      exact .none
  | node j ts => exact h.2.find? k

/-- A path leads down a tree as it leads down the nodes that show it. -/
theorem ShownBy.descend? {t : Tree} {n : Node} (h : t.ShownBy n) (ks : List Kind) :
    Option.Rel ShownBy (t.descend? ks) (n.descend? ks) := by
  induction ks generalizing t n with
  | nil => exact .some h
  | cons k ks ih =>
      rw [Tree.descend?, Node.descend?]
      have hk := h.child? k
      generalize t.child? k = v, n.child? k = m at hk
      cases hk with
      | none => exact .none
      | some hm => exact ih hm

end Tree

/-- The kind and the text of a lexeme. -/
def Lexeme.kindAndText (l : Lexeme) : Kind × Text := (l.kind, l.text)

theorem Lexeme.kindAndText_injective : Function.Injective kindAndText := by
  rintro ⟨k, s⟩ ⟨j, t⟩ h
  obtain ⟨hk, rfl⟩ := Prod.mk.inj h
  obtain rfl := Kind.token.inj hk
  rfl

theorem Tree.ShownByAll.words {ls : List Lexeme} {ns : List Node} (h : ShownByAll (ls.map Tree.leaf) ns) :
    ns.map Node.word = ls.map Lexeme.kindAndText := by
  induction ls generalizing ns with
  | nil =>
      obtain rfl : ns = [] := h
      rfl
  | cons l ls ih =>
      obtain ⟨n, ns, rfl, ⟨hk, ht, -⟩, hns⟩ := h.exists_cons
      rw [List.map_cons, List.map_cons, ih hns, Node.word, hk, ht]
      rfl

/-! ## The two files -/

namespace SyntaxTree

/-- The type of the first parameter of the first procedure. -/
def parameterType : List Kind :=
  [NodeKind.codeunitObject, NodeKind.methodDeclaration, NodeKind.parameterList, NodeKind.parameter,
    NodeKind.typeReference]

/-- The type of the return value of the first procedure. -/
def returnType : List Kind :=
  [NodeKind.codeunitObject, NodeKind.methodDeclaration, NodeKind.returnValue, NodeKind.typeReference]

/-- The body of the first procedure. -/
def procedureBody : List Kind := [NodeKind.codeunitObject, NodeKind.methodDeclaration, NodeKind.block]

variable {t u : Text} {T : List Lexeme} {r : Node}

/-- The type that is found for the parameter was read as one, without a problem and up to the bracket that
closes the parameters. -/
theorem exists_read_parameterType (ht : t.significant.map (·.toLexeme) = parameterFile T) (hok : (parse t).ok)
    (hr : (parse t).root.descend? parameterType = some r)
    (hw : r.children.map Node.word = T.map Lexeme.kindAndText) : ∃ c,
      (typeReference.read c).problems = [] ∧
      (typeReference.read c).made = [.node NodeKind.typeReference (T.map Tree.leaf)] ∧
      (typeReference.read c).rest.ahead = ⟨.rParen, [')']⟩ :: closed := by
  let c : Cursor := ⟨9, T ++ ⟨.rParen, [')']⟩ :: closed⟩
  obtain ⟨as, bs, hp⟩ := startsWith_parameterList 6 c.ahead
  obtain ⟨cs, ds, hd⟩ := startsWith_declarations hp
  have hn : (typeReference.read c).problems = [] := by
    have hd := hd.problems
    rw [ok_iff, ht] at hok
    exact List.prefix_nil.mp (hok ▸ hd)
  -- The trees of the text start with those of the object, so the path leads to what was read as the type.
  obtain ⟨ls, hls⟩ := exists_words hn
  obtain ⟨es, he⟩ := hd.made
  rw [show (typeReference.read ⟨6 + 3, c.ahead⟩).made = _ from hls] at he
  have hf : forest t = (declarations.read ⟨0, parameterFile T⟩).made := by rw [forest, ht]
  have hs := (root_shows t).descend? parameterType
  rw [hr, hf.trans he.symm] at hs
  have hs : Option.Rel ShownBy (some (.node NodeKind.typeReference (ls.map Tree.leaf))) (some r) := hs
  cases hs with
  | some hs =>
      have hl : ls = T := Lexeme.kindAndText_injective.list_map (hs.2.words.symm.trans hw)
      have hu := Production.read_leaves typeReference c
      rw [hls, hl, leavesOf, leaves, leavesOf_map_leaf] at hu
      exact ⟨c, hn, hl ▸ hls, by simpa [leavesOf, c] using hu⟩

theorem leaves_returning (ls : List Lexeme) (bs : List Tree) :
    leavesOf [codeunit (returning (ls.map Tree.leaf) bs)] =
      named ++ ⟨.lParen, ['(']⟩ :: ⟨.rParen, [')']⟩ :: ⟨.colon, [':']⟩ ::
        (ls ++ (leavesOf bs ++ [⟨.rBrace, ['\x7d']⟩])) := by
  simp [codeunit, returning, named, opened, identifier, leavesOf, leaves, leavesOf_map_leaf]

/-- A file that is read back as a procedure with a return value shows the type of it, and the body if there is
one. -/
theorem descend_returning {ls : List Lexeme} {bs : List Tree} (hu : u.significant.map (·.toLexeme) = returnFile T)
    (hl : ls ++ (leavesOf bs ++ [⟨.rBrace, ['\x7d']⟩]) = T ++ closed)
    (h : declarations.Reads [codeunit (returning (ls.map Tree.leaf) bs)] []) :
    (parse u).ok ∧ ∃ s, (parse u).root.descend? returnType = some s ∧
      s.children.map Node.word = ls.map Lexeme.kindAndText ∧
      ((parse u).root.descend? procedureBody).isSome =
        (bs.find? (·.kind == Kind.node NodeKind.block)).isSome := by
  obtain ⟨hm, hn⟩ := h.outcome 0
  rw [List.append_nil, leaves_returning, hl, ← returnFile, ← hu] at hm hn
  refine ⟨(ok_iff u).mpr hn, ?_⟩
  have hr := (root_shows u).descend? returnType
  have hb := (root_shows u).descend? procedureBody
  rw [forest, hm] at hr hb
  have hr : Option.Rel ShownBy (some (.node NodeKind.typeReference (ls.map Tree.leaf)))
    ((parse u).root.descend? returnType) := hr
  have hb : Option.Rel ShownBy ((bs.find? (·.kind == Kind.node NodeKind.block)).bind some)
    ((parse u).root.descend? procedureBody) := hb
  rw [Option.bind_fun_some] at hb
  generalize (parse u).root.descend? returnType = s at hr
  generalize bs.find? _ = b, (parse u).root.descend? procedureBody = d at hb
  cases hr with
  | some hs =>
      refine ⟨_, rfl, hs.2.words, ?_⟩
      cases hb <;> rfl

/-- What is read as the type of a parameter is read as the type of a return value in front of a body, unless it
ends with a clause. Then the type of the return value takes the body, and the procedure is left without one. -/
theorem returnType_of_parameterType (ht : t.significant.map (·.toLexeme) = parameterFile T)
    (hu : u.significant.map (·.toLexeme) = returnFile T) (hok : (parse t).ok)
    (hr : (parse t).root.descend? parameterType = some r)
    (hw : r.children.map Node.word = T.map Lexeme.kindAndText) :
    (parse u).ok ∧ ∃ s, (parse u).root.descend? returnType = some s ∧
      (¬EndsWithClause T → s.children.map Node.word = T.map Lexeme.kindAndText ∧
        ((parse u).root.descend? procedureBody).isSome) ∧
      (EndsWithClause T → s.children.map Node.word = (T ++ closed.take 2).map Lexeme.kindAndText ∧
        (parse u).root.descend? procedureBody = none) := by
  obtain ⟨c, hn, hm, hc⟩ := exists_read_parameterType ht hok hr hw
  by_cases he : EndsWithClause T
  · have h := reads_returnFile_clause hn hm hc (by rwa [leavesOf_map_leaf])
    rw [← List.map_append] at h
    obtain ⟨hok, s, hs, hsw, hb⟩ := descend_returning hu (by rw [List.append_assoc]; rfl) h
    refine ⟨hok, s, hs, fun hn => absurd he hn, fun _ => ⟨hsw, ?_⟩⟩
    exact Option.isNone_iff_eq_none.mp (Option.isSome_eq_false_iff.mp hb)
  · have h := reads_returnFile hn hm hc (by rwa [leavesOf_map_leaf])
    obtain ⟨hok, s, hs, hsw, hb⟩ := descend_returning hu rfl h
    exact ⟨hok, s, hs, fun _ => ⟨hsw, hb⟩, fun hc => absurd hc he⟩

/-- An option takes the words of the body behind it, and nothing is noted. -/
theorem returnType_option :
    let t := parse "codeunit 1 X \x7b procedure P(x: Option) begin end; \x7d".toList
    let u := parse "codeunit 1 X \x7b procedure P(): Option begin end; \x7d".toList
    t.ok ∧ (t.root.descend? parameterType).map (·.text) = some "Option".toList ∧
      u.ok ∧ (u.root.descend? returnType).map (·.text) = some "Option begin end".toList ∧
        (u.root.descend? procedureBody).isNone := by
  decide +kernel

end SyntaxTree

end AlRefactor
