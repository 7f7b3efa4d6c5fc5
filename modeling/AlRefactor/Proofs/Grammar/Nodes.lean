import AlRefactor.Proofs.Grammar.Progress

/-!
# What all nodes have in common

A property of nodes and their children that every place of the grammar where a node is made respects
holds of all nodes of all trees. By this, a composite node never has the kind of a token, except for
unreadable members, which are not empty, and a name is one token at most.
-/

namespace AlRefactor

namespace Tree

mutual
/-- A property of every composite node of a tree. -/
def Everywhere (P : Kind → List Tree → Prop) : Tree → Prop
  | .leaf _ => True
  | .node k ts => P k ts ∧ EverywhereAll P ts

def EverywhereAll (P : Kind → List Tree → Prop) : List Tree → Prop
  | [] => True
  | t :: ts => Everywhere P t ∧ EverywhereAll P ts
end

theorem everywhereAll_append {P : Kind → List Tree → Prop} {ts us : List Tree} :
    EverywhereAll P (ts ++ us) ↔ EverywhereAll P ts ∧ EverywhereAll P us := by
  induction ts with
  | nil => simp [EverywhereAll]
  | cons t ts ih => simp [EverywhereAll, ih, and_assoc]

end Tree

namespace Production

open AlRefactor.Tree

/-- Every node that a production makes from a cursor on has a property. -/
def Makes (P : Kind → List Tree → Prop) : Production → Cursor → Prop
  | skip, _ | take, _ | report _, _ => True
  | andThen p q, c => p.Makes P c ∧ ∀ d, q.Makes P d
  | look next, c => (next c).Makes P c
  | whileAt _ p, _ => ∀ d, p.Makes P d
  | mark p kind q, c => p.Makes P c ∧ (∀ d, q.Makes P d) ∧
      P (kind (p.read c).rest) ((p.read c).made ++ (q.read (p.read c).rest).made)
  | grow p kind q, c => p.Makes P c ∧ (∀ d, q.Makes P d) ∧
      ∀ d k ts, kind d = some k → P k (ts ++ (q.read d).made)

variable {P : Kind → List Tree → Prop}

theorem everywhere_rounds {test : Cursor → Bool} {p : Cursor → Outcome (List Tree)}
    (h : ∀ c, EverywhereAll P (p c).made) (n : Nat) (c : Cursor) :
    EverywhereAll P (Assembly.trees.rounds test p n c).made := by
  induction n generalizing c with
  | zero => exact trivial
  | succ n ih =>
      simp only [Assembly.rounds]
      split
      · exact everywhereAll_append.mpr ⟨h c, ih _⟩
      · exact trivial

theorem everywhere_grown {kind : Cursor → Option NodeKind} {q : Cursor → Outcome (List Tree)}
    (h : ∀ c, EverywhereAll P (q c).made)
    (hP : ∀ c k ts, kind c = some k → P k (ts ++ (q c).made)) (n : Nat)
    (a : Outcome (List Tree)) (ha : EverywhereAll P a.made) :
    EverywhereAll P (Assembly.trees.grown kind q n a).made := by
  induction n generalizing a with
  | zero => exact ha
  | succ n ih =>
      simp only [Assembly.grown]
      split
      · exact ha
      · rename_i k hk
        exact ih _ ⟨⟨hP _ k _ hk, everywhereAll_append.mpr ⟨ha, h _⟩⟩, trivial⟩

/-- What every node has that a production makes, every node of its trees has. -/
theorem Makes.read {p : Production} {c : Cursor} (h : p.Makes P c) :
    EverywhereAll P (p.read c).made := by
  induction p generalizing c with
  | skip => exact trivial
  | take => obtain ⟨n, ls⟩ := c; cases ls <;> simp [EverywhereAll, Everywhere]
  | report problem => exact trivial
  | andThen p q ihp ihq => exact everywhereAll_append.mpr ⟨ihp h.1, ihq (h.2 _)⟩
  | look next ih => exact ih c h
  | whileAt test p ih => exact everywhere_rounds (fun d => ih (h d)) _ c
  | mark p kind q ihp ihq =>
      exact ⟨⟨h.2.2, everywhereAll_append.mpr ⟨ihp h.1, ihq (h.2.1 _)⟩⟩, trivial⟩
  | grow p kind q ihp ihq =>
      rw [read_grow]
      split
      · exact everywhere_grown (fun d => ihq (h.2.1 d)) h.2.2 _ _ (ihp h.1)
      · exact ihp h.1

/-! ## For each way to put productions together -/

variable {p q : Production} {c : Cursor}

@[simp] theorem makes_skip : skip.Makes P c := trivial

@[simp] theorem makes_take : take.Makes P c := trivial

@[simp] theorem makes_report (problem : Problem) : (report problem).Makes P c := trivial

@[simp] theorem makes_append : (p ++ q).Makes P c ↔ p.Makes P c ∧ ∀ d, q.Makes P d := Iff.rfl

@[simp] theorem makes_look {next : Cursor → Production} :
    (look next).Makes P c ↔ (next c).Makes P c := Iff.rfl

@[simp] theorem makes_whileAt {test : Cursor → Bool} :
    (whileAt test p).Makes P c ↔ ∀ d, p.Makes P d := Iff.rfl

@[simp] theorem makes_choose {test : Cursor → Bool} :
    (choose test p q).Makes P c ↔ if test c then p.Makes P c else q.Makes P c := by
  rw [choose, makes_look]; split <;> rfl

@[simp] theorem makes_takes (n : Nat) : (takes n).Makes P c := by
  induction n generalizing c with
  | zero => exact trivial
  | succ n ih => exact ⟨trivial, fun _ => ih⟩

@[simp] theorem makes_balanced : balanced.Makes P c := by
  rw [balanced, makes_look, makes_append]
  exact ⟨makes_takes _, fun _ => by split <;> simp⟩

@[simp] theorem makes_clause : clause.Makes P c := makes_takes _

@[simp] theorem makes_takeIf (k : TokenKind) : (takeIf k).Makes P c := by simp [takeIf]

@[simp] theorem makes_expect (k : TokenKind) (missing : Problem) : (expect k missing).Makes P c := by
  simp [expect]

@[simp] theorem makes_require (k : TokenKind) : (require k).Makes P c := makes_expect _ _

end Production

/-! ## Composite nodes of the kind of a token, and names -/

namespace Tree

/-- A composite node has the kind of a token only if it is unreadable, and then it is not empty. -/
def Composite (k : Kind) (ts : List Tree) : Prop := k.isToken → k = TokenKind.error ∧ ts ≠ []

theorem composite_node (k : NodeKind) (ts : List Tree) : Composite k ts := nofun

/-- A name has one token below it, or none where the text ends before it. -/
def Single (k : Kind) (ts : List Tree) : Prop :=
  k = NodeKind.identifierName → ts = [] ∨ ∃ l, ts = [.leaf l]

/-- What is known of every node that the grammar makes. -/
def Formed (k : Kind) (ts : List Tree) : Prop := Composite k ts ∧ Single k ts

theorem formed_node {k : NodeKind} (hk : k ≠ .identifierName) (ts : List Tree) : Formed k ts :=
  ⟨composite_node k ts, fun h => absurd (Kind.node.inj h) hk⟩

mutual
theorem Everywhere.imp {P Q : Kind → List Tree → Prop} (h : ∀ k ts, P k ts → Q k ts) :
    (t : Tree) → Everywhere P t → Everywhere Q t
  | .leaf _, _ => trivial
  | .node k ts, hp => ⟨h k ts hp.1, EverywhereAll.imp h ts hp.2⟩

theorem EverywhereAll.imp {P Q : Kind → List Tree → Prop} (h : ∀ k ts, P k ts → Q k ts) :
    (ts : List Tree) → EverywhereAll P ts → EverywhereAll Q ts
  | [], _ => trivial
  | t :: ts, hp => ⟨Everywhere.imp h t hp.1, EverywhereAll.imp h ts hp.2⟩
end

end Tree

namespace Grammar

open Production AlRefactor.Tree

@[simp] theorem makes_node {p : Production} {k : NodeKind} (hk : k ≠ .identifierName)
    {c : Cursor} : (node k p).Makes Formed c ↔ p.Makes Formed c :=
  ⟨fun h => h.1, fun h => ⟨h, fun _ => trivial, formed_node hk _⟩⟩

@[simp] theorem makes_name (c : Cursor) : name.Makes Formed c := by
  refine ⟨trivial, fun _ => trivial, composite_node _ _, fun _ => ?_⟩
  obtain ⟨n, _ | ⟨l, ls⟩⟩ := c
  · exact .inl rfl
  · exact .inr ⟨l, rfl⟩

@[simp] theorem makes_nameOr (missing : Problem) (c : Cursor) :
    (nameOr missing).Makes Formed c := by simp [nameOr]

/-! ### Expressions -/

theorem ne_of_follower {c : Cursor} {k : NodeKind} (h : follower c = some k) :
    k ≠ .identifierName := by
  rintro rfl
  unfold follower at h
  split at h <;> simp at h

theorem ne_of_operator {allowIn : Bool} {power : Nat} {c : Cursor} {k : NodeKind}
    (h : operator allowIn power c = some k) : k ≠ .identifierName := by
  rintro rfl
  unfold operator at h
  repeat' split at h
  all_goals simp at h

section Expression

variable {inner : Inner} (h : ∀ allowIn power c, (inner allowIn power).Makes Formed c)
include h

theorem makes_bracketed (close : TokenKind) (c : Cursor) :
    (bracketed inner close).Makes Formed c := by
  simp [bracketed, expressions, h]

theorem makes_primary (c : Cursor) : (primary inner).Makes Formed c := by
  rw [primary, makes_look]
  split
  · simp
  · split
    · simp
    · split <;> simp [h, makes_bracketed h]

theorem makes_suffix (c : Cursor) : (suffix inner).Makes Formed c := by
  rw [suffix, makes_look]
  split <;> simp [selector, argumentList, makes_bracketed h]

theorem makes_operand (allowIn : Bool) (c : Cursor) :
    (operand inner allowIn).Makes Formed c := by
  rw [operand, makes_look]
  split
  · simp [h]
  · exact ⟨makes_primary h c, makes_suffix h, fun _ _ _ hk => formed_node (ne_of_follower hk) _⟩

theorem makes_expressionStep (allowIn : Bool) (power : Nat) (c : Cursor) :
    (expressionStep inner allowIn power).Makes Formed c :=
  ⟨makes_operand h allowIn c, fun _ => ⟨trivial, h _ _⟩,
    fun _ _ _ hk => formed_node (ne_of_operator hk) _⟩

end Expression

theorem makes_expressionUpTo (n : Nat) (allowIn : Bool) (power : Nat) (c : Cursor) :
    (expressionUpTo n allowIn power).Makes Formed c := by
  induction n generalizing allowIn power c with
  | zero => exact trivial
  | succ n ih => exact makes_expressionStep ih allowIn power c

@[simp] theorem makes_expression (c : Cursor) : expression.Makes Formed c :=
  makes_expressionUpTo _ _ _ c

@[simp] theorem makes_expressionWithoutIn (c : Cursor) : expressionWithoutIn.Makes Formed c :=
  makes_expressionUpTo _ _ _ c

/-! ### Statements -/

@[simp] theorem makes_separator (c : Cursor) : separator.Makes Formed c := by
  simp [separator, recover]

theorem makes_assignmentOrCall (c : Cursor) : assignmentOrCall.Makes Formed c := by
  refine ⟨makes_expression c, by simp, ?_⟩
  dsimp only
  repeat' split
  all_goals exact formed_node (by decide) _

section Statement

variable {inner : Production} (h : ∀ c, inner.Makes Formed c)
include h

theorem makes_controlled (c : Cursor) : (controlled inner).Makes Formed c := by
  simp [controlled, h]

theorem makes_statements (close : TokenKind) (c : Cursor) :
    (statements inner close).Makes Formed c := by simp [statements, h]

theorem makes_blockBody (c : Cursor) : (blockBody inner).Makes Formed c := by
  simp [blockBody, makes_statements h]

theorem makes_statementStep (c : Cursor) : (statementStep inner).Makes Formed c := by
  have hc := makes_controlled h
  have hs := makes_statements h
  rw [statementStep, makes_look]
  split
  · simp [makes_blockBody h]
  · simp [ifStatement, hc]
  · simp [caseStatement, caseLine, hc, hs]
  · simp [guarded, hc]
  · simp [guarded, hc]
  · simp [repeatStatement, hs, requireThen]
  · simp [forStatement, hc, requireThen]
  · simp [forEachStatement, hc, requireThen]
  · simp [exitStatement, takeThen]
  · simp
  · split
    · exact makes_assignmentOrCall c
    · simp

end Statement

theorem makes_statement (c : Cursor) : statement.Makes Formed c := by
  rw [statement, makes_look]
  generalize c.ahead.length + 1 = n
  induction n generalizing c with
  | zero => exact trivial
  | succ n ih => exact makes_statementStep ih c

@[simp] theorem makes_block (c : Cursor) : block.Makes Formed c :=
  (makes_node (by decide)).mpr (makes_blockBody makes_statement c)

/-! ### Variables, parameters, procedures and triggers -/

@[simp] theorem makes_attributes (c : Cursor) : attributes.Makes Formed c := by
  simp [attributes]

theorem makes_typeTail (word : Text) {element : Production} (h : ∀ c, element.Makes Formed c)
    (c : Cursor) : (typeTail word element).Makes Formed c := by
  unfold typeTail
  repeat' split
  all_goals simp [takeThen, h]

theorem makes_typeUpTo (n : Nat) (c : Cursor) : (typeUpTo n).Makes Formed c := by
  induction n generalizing c with
  | zero => exact trivial
  | succ n ih =>
      rw [typeUpTo, makes_look]
      split
      · simp [makes_typeTail _ ih]
      · simp

@[simp] theorem makes_typeReference (c : Cursor) : typeReference.Makes Formed c :=
  (makes_node (by decide)).mpr (makes_typeUpTo _ c)

@[simp] theorem makes_typed (c : Cursor) : typed.Makes Formed c := by simp [typed, requireThen]

theorem makes_variableDeclaration (c : Cursor) : variableDeclaration.Makes Formed c := by
  refine ⟨makes_attributes c, by simp [listedName, furtherNames, takeThen], ?_⟩
  dsimp only
  split <;> exact formed_node (by decide) _

@[simp] theorem makes_varSection {k : NodeKind} (hk : k ≠ .identifierName) (c : Cursor) :
    (varSection k).Makes Formed c := by
  simp [varSection, hk, makes_variableDeclaration]

theorem makes_methodRest (c : Cursor) : methodRest.Makes Formed c := by
  simp [methodRest, parameterList, parameters, parameter, noParameter, takeThen, returnValue]

theorem kind_congr {c d : Cursor} (h : c.ahead = d.ahead) : c.kind = d.kind := by
  simp [Cursor.kind, Cursor.peek, h]

theorem rest_of_made_nil {p : Production} {c : Cursor} (h : (p.read c).made = []) :
    (p.read c).rest.kind = c.kind := by
  have hl := p.read_leaves c
  rw [h] at hl
  exact kind_congr hl

theorem not_atModifier {c : Cursor} (h : (methodStart.read c).made = []) :
    c.kind ≠ .lBracket ∧ c.kind.isAccessModifier = false := by
  rw [methodStart, read_append] at h
  obtain ⟨ha, hm⟩ := List.append_eq_nil_iff.mp h
  have hr := rest_of_made_nil ha
  have hs := modifiers_stop (attributes.read c).rest
  rw [rest_of_made_nil hm, hr] at hs
  exact ⟨hr ▸ attributes_stop c, hs⟩

/-- A procedure or trigger with what may stand in front of it can start here. -/
def AtMethod (c : Cursor) : Prop :=
  c.kind = .lBracket ∨ c.kind = .kwProcedure ∨ c.kind = .kwTrigger ∨ c.kind.isAccessModifier

theorem makes_method {c : Cursor} (h : AtMethod c) : method.Makes Formed c := by
  refine ⟨by simp [methodStart], by simp [methodTail, makes_methodRest], ?_⟩
  dsimp only
  split
  · exact formed_node (by decide) _
  · split
    · exact formed_node (by decide) _
    · rename_i ht hp
      refine ⟨fun _ => ⟨rfl, fun hm => ?_⟩, nofun⟩
      -- Nothing was read, so the member starts with the keyword that is missing behind it.
      have hm := (List.append_eq_nil_iff.mp hm).1
      have hn := not_atModifier hm
      simp only [Cursor.isAt, rest_of_made_nil hm, beq_iff_eq] at ht hp
      simp [AtMethod, hn, ht, hp] at h

/-! ### Members, objects and files -/

section Member

variable {inner : Production} (h : ∀ c, inner.Makes Formed c)
include h

theorem makes_memberList (c : Cursor) : (memberList inner).Makes Formed c := by
  simp [memberList, takeThen, h]

theorem makes_memberStep (c : Cursor) : (memberStep inner).Makes Formed c := by
  rw [memberStep, makes_look]
  split
  · simp
  all_goals first | exact makes_method (by simp_all [AtMethod, TokenKind.isAccessModifier]) | skip
  · split
    · simp
    · exact makes_method (by simp_all [AtMethod, TokenKind.isAccessModifier])
  · simp
  · split
    · simp [property]
    · split
      · simp [sectionOf, sectionArguments, sectionBody, makes_memberList h]
      · simp

end Member

theorem makes_member (c : Cursor) : member.Makes Formed c := by
  rw [member, makes_look]
  generalize c.ahead.length + 1 = n
  induction n generalizing c with
  | zero => exact trivial
  | succ n ih => exact makes_memberStep ih c

theorem ne_of_ofObjectWord? {word : Text} {k : NodeKind} (h : NodeKind.ofObjectWord? word = some k) :
    k ≠ .identifierName := by
  obtain ⟨entry, he, rfl⟩ := Option.map_eq_some_iff.mp h
  exact (by decide : ∀ e ∈ NodeKind.objectWords, e.2 ≠ .identifierName) entry
    (List.mem_of_find?_eq_some he)

theorem makes_object {k : NodeKind} (hk : k ≠ .identifierName) (c : Cursor) :
    (object k).Makes Formed c := by
  simp [object, hk, header, extendsClause, implementsClause, interfaces, takeThen, headerRest,
    makes_memberList makes_member]

theorem makes_declarations (c : Cursor) : declarations.Makes Formed c := by
  intro c
  rw [declaration, makes_look]
  split
  · simp [directive]
  · split
    · simp [directive]
    · split
      · rename_i hk
        split at hk
        · exact makes_object (ne_of_ofObjectWord? hk) c
        · cases hk
      · simp

/-- In a file only unreadable members are composite nodes of the kind of a token, and they are not
empty. -/
theorem composite_declarations (c : Cursor) : EverywhereAll Composite (declarations.read c).made :=
  EverywhereAll.imp (fun _ _ h => h.1) _ (makes_declarations c).read

theorem single_declarations (c : Cursor) : EverywhereAll Single (declarations.read c).made :=
  EverywhereAll.imp (fun _ _ h => h.2) _ (makes_declarations c).read

end Grammar

end AlRefactor
