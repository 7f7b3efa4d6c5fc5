import AlRefactor.Proofs.Declaration.Names
import AlRefactor.Proofs.Token.Names

/-!
# Names that arguments ask for

The parameter that an argument asks for is called after what the argument is: a variable, a literal, an
enum or a field. Names of variables and of literals are identifiers. Of the name of an enum or of a field
only letters, digits and underscores are kept, and what is left need not be an identifier.
-/

namespace AlRefactor

open SyntaxTree

variable {text t : Text} {ts : Trees} {method expression literal : Node} {v : Variable} {a : Argument}

/-! ## Names made from other names -/

namespace Text

/-- A text that starts with a digit or is a keyword. -/
def IsMisread (t : Text) : Prop := (∃ c ∈ t.head?, c.isDigit) ∨ t.IsKeyword

theorem isNamePart_of_mem_parameterName {d : Char} (h : d ∈ t.parameterName) : Lexeme.isNamePart d := by
  rw [parameterName] at h
  split at h
  · exact List.all_eq_true.mp (by decide : ("Value" : Text).all Lexeme.isNamePart) d h
  · exact isNamePart_of_mem_plain h

theorem parameterName_ne_nil (t : Text) : t.parameterName ≠ [] := by
  rw [parameterName]
  split
  · decide
  · rename_i h
    exact fun hn => h (List.isEmpty_iff.mpr hn)

/-- What is left of a name is an identifier unless it is read as something else. -/
theorem isIdentifier_parameterName (t : Text) :
    t.parameterName.isIdentifier ↔ ¬ t.parameterName.IsMisread := by
  obtain ⟨c, u, hcu⟩ := List.exists_cons_of_ne_nil (parameterName_ne_nil t)
  have hp : ∀ d ∈ c :: u, Lexeme.isNamePart d := fun d hd =>
    isNamePart_of_mem_parameterName (t := t) (hcu ▸ hd)
  obtain ⟨hc, hu⟩ := List.forall_mem_cons.mp hp
  rw [hcu]
  cases hd : c.isDigit with
  | true =>
      refine iff_of_false (fun hi => ?_) (not_not_intro (.inl ⟨c, rfl, hd⟩))
      obtain ⟨⟨_, _, he, hs, -⟩, -⟩ | ⟨_, he, -⟩ := isIdentifier_iff.mp hi
      · obtain ⟨rfl, -⟩ := List.cons.inj he
        exact Bool.false_ne_true ((Lexeme.not_of_isDigit hd).2.1.symm.trans hs)
      · obtain ⟨rfl, -⟩ := List.cons.inj he
        cases hd
  | false =>
      have hs : IsPlainName (c :: u) := ⟨c, u, rfl, isNameStart_of_isNamePart hc hd, hu⟩
      rw [hs.isIdentifier_iff, IsMisread, not_or, iff_and_self]
      rintro - ⟨d, hcd, hdd⟩
      obtain rfl := Option.some.inj hcd
      exact Bool.false_ne_true (hd.symm.trans hdd)

end Text

/-! ## Variables and literals -/

/-- What a name means in a procedure is called by an identifier. -/
theorem Trees.isIdentifier_lookup? (h : (parse text).ok) (hn : method ∈ (parse text).nodes)
    (hk : method.kind.isMethod) {name : Text} (hv : ts.lookup? method name = some v) :
    v.name.isIdentifier := by
  rw [lookup?] at hv
  obtain hv | ⟨-, hv⟩ := Option.or_eq_some_iff.mp hv
  · exact Node.isIdentifier_scope h hn hk v (List.mem_of_find?_eq_some hv)
  · split at hv
    · rename_i hr
      obtain ⟨_, -, rfl⟩ := Option.map_eq_some_iff.mp hv
      have hrec : Text.IsPlainName "Rec" ∧ Text.isIdentifier "Rec" :=
        ⟨⟨'R', "ec", rfl, rfl, List.all_eq_true.mp (by decide)⟩, by decide +kernel⟩
      have hxrec : Text.IsPlainName "xRec" ∧ Text.isIdentifier "xRec" :=
        ⟨⟨'x', "Rec", rfl, rfl, List.all_eq_true.mp (by decide)⟩, by decide +kernel⟩
      rcases Bool.or_eq_true_iff.mp hr with hr | hr
      · exact Text.isIdentifier_of_sameName hrec.1 (hrec.1.isIdentifier_iff.mp hrec.2) hr
      · exact Text.isIdentifier_of_sameName hxrec.1 (hxrec.1.isIdentifier_iff.mp hxrec.2) hr
    · cases hv

theorem Node.isIdentifier_argumentOfLiteral? (h : expression.argumentOfLiteral? literal = some a) :
    a.parameter.name.isIdentifier := by
  obtain ⟨type, ht, rfl⟩ := Option.map_eq_some_iff.mp h
  have hmem : type ∈ (["Integer", "Decimal", "Text", "Boolean", "DateTime", "Date", "Time"] : List Text) := by
    obtain ⟨k, -, hk⟩ := Option.bind_eq_some_iff.mp ht
    dsimp only at hk
    split at hk
    case h_6 =>
      split at hk
      · cases hk; decide
      · split at hk <;> (cases hk; decide)
    case h_7 => cases hk
    all_goals cases hk; decide
  have hall : (["Integer", "Decimal", "Text", "Boolean", "DateTime", "Date", "Time"] : List Text).all
      fun type => Text.isIdentifier (type ++ "Value") := by decide +kernel
  exact List.all_eq_true.mp hall type hmem

/-! ## Arguments -/

/-- The name in an expression that is changed to call a parameter after it: that of an enum or of a field. -/
def Node.namesake? (expression : Node) : Option Node :=
  if expression.is NodeKind.optionAccessExpression then
    expression.childNodes.head?.bind fun qualifier => (qualifier.childrenOf NodeKind.identifierName)[1]?
  else if expression.is NodeKind.memberAccessExpression then
    expression.lastChild? NodeKind.identifierName
  else none

theorem Node.namesake?_eq_none (ho : expression.kind ≠ NodeKind.optionAccessExpression)
    (hm : expression.kind ≠ NodeKind.memberAccessExpression) : expression.namesake? = none := by
  simp [namesake?, Node.is, ho, hm]

/-- The parameter is called by an identifier, or if there is a name to call it after, by what is left of that
name. Then it is an identifier unless it is read as something else. -/
structure Argument.CalledAfter (a : Argument) (namesake : Option Node) : Prop where
  own : namesake = none → a.parameter.name.isIdentifier
  other : ∀ m ∈ namesake, a.parameter.name = m.text.parameterName ∧
    (a.parameter.name.isIdentifier ↔ ¬ a.parameter.name.IsMisread)

theorem Argument.CalledAfter.of_isIdentifier (h : a.parameter.name.isIdentifier) : a.CalledAfter none :=
  ⟨fun _ => h, by simp⟩

theorem Argument.CalledAfter.of_eq {m : Node} (h : a.parameter.name = m.text.parameterName) :
    a.CalledAfter (some m) := by
  refine ⟨by simp, fun n hn => ?_⟩
  obtain rfl := Option.some.inj hn
  exact ⟨h, h ▸ Text.isIdentifier_parameterName _⟩

/-- An argument is a variable or a literal, or there is a name that its parameter is called after. -/
theorem Trees.argument?_cases (ha : ts.argument? method expression = some a) :
    (expression.namesake? = none ∧
        ((∃ v, ts.lookup? method expression.text = some v ∧ a.parameter.name = v.name) ∨
          ∃ literal, expression.argumentOfLiteral? literal = some a)) ∨
      ∃ m, expression.namesake? = some m ∧ a.parameter.name = m.text.parameterName := by
  have hnone {k : NodeKind} (hx : expression.kind = k) (ho : k ≠ .optionAccessExpression)
      (hm : k ≠ .memberAccessExpression) : expression.namesake? = none :=
    Node.namesake?_eq_none (hx ▸ fun h => ho (Kind.node.inj h)) (hx ▸ fun h => hm (Kind.node.inj h))
  rw [argument?] at ha
  split at ha
  · rename_i hx
    obtain ⟨v, hv, rfl⟩ := Option.map_eq_some_iff.mp ha
    exact .inl ⟨hnone hx (by decide) (by decide), .inl ⟨v, hv, rfl⟩⟩
  · rename_i hx
    exact .inl ⟨hnone hx (by decide) (by decide), .inr ⟨_, ha⟩⟩
  · rename_i hx
    obtain ⟨operand, -, ha⟩ := Option.bind_eq_some_iff.mp ha
    split at ha
    · exact .inl ⟨hnone hx (by decide) (by decide), .inr ⟨_, ha⟩⟩
    · cases ha
  · -- The value of an enum is called after the name behind the keyword.
    rename_i hx
    obtain ⟨qualifier, hq, ha⟩ := Option.bind_eq_some_iff.mp ha
    split at ha
    · split at ha
      · rename_i keyword enum more hks
        split at ha
        · cases ha
          refine .inr ⟨enum, ?_, rfl⟩
          rw [Node.namesake?, Node.is, hx, hq, Option.bind_some, hks]
          rfl
        · cases ha
      · cases ha
    · cases ha
  · -- The field of a record is called after the member's name.
    rename_i hx
    obtain ⟨receiver, -, ha⟩ := Option.bind_eq_some_iff.mp ha
    obtain ⟨member, hm, ha⟩ := Option.bind_eq_some_iff.mp ha
    split at ha
    · obtain ⟨record, -, ha⟩ := Option.bind_eq_some_iff.mp ha
      obtain ⟨⟨word, table⟩, -, ha⟩ := Option.bind_eq_some_iff.mp ha
      dsimp only at ha
      split at ha
      · obtain ⟨type, -, ha⟩ := Option.bind_eq_some_iff.mp ha
        cases ha
        refine .inr ⟨member, ?_, rfl⟩
        rw [Node.namesake?, Node.is, Node.is, hx, hm]
        rfl
      · cases ha
    · cases ha
  · cases ha

/-- The parameter of an argument is called by an identifier, but for what is left of the name of an enum or of
a field when it is read as something else. -/
theorem Trees.argument?_calledAfter (h : (parse text).ok) (hn : method ∈ (parse text).nodes)
    (hk : method.kind.isMethod) (ha : ts.argument? method expression = some a) :
    a.CalledAfter expression.namesake? := by
  rcases argument?_cases ha with ⟨hs, ⟨v, hv, he⟩ | ⟨literal, hl⟩⟩ | ⟨m, hs, he⟩
  · exact hs ▸ .of_isIdentifier (he ▸ isIdentifier_lookup? h hn hk hv)
  · exact hs ▸ .of_isIdentifier (Node.isIdentifier_argumentOfLiteral? hl)
  · exact hs ▸ .of_eq he

/-- What is left of a quoted name may start with a digit, and then it is a number and a name. -/
theorem Trees.argument?_misread :
    let text : Text := "codeunit 1 A \x7b procedure P() begin Q(Enum::\"1st\"::X); end; \x7d"
    (parse text).ok ∧ ∃ method ∈ (parse text).nodes, method.kind = NodeKind.methodDeclaration ∧
      ∃ expression ∈ method.subtree, ∃ a, argument? [(0, parse text)] method expression = some a ∧
        a = ⟨.plain "1st" "Enum \"1st\"", "Enum::\"1st\"::X", false⟩ ∧
        Lexeme.lex a.parameter.name = [⟨.intLiteral, "1"⟩, ⟨.ident, "st"⟩] := by
  intro text
  have hr : (parse text).ok ∧ (parse text).nodes.any fun method =>
      method.is NodeKind.methodDeclaration && method.subtree.any fun expression =>
        argument? [(0, parse text)] method expression ==
          some ⟨.plain "1st" "Enum \"1st\"", "Enum::\"1st\"::X", false⟩ := by decide +kernel
  simp only [List.any_eq_true, Bool.and_eq_true, Node.is, beq_iff_eq] at hr
  obtain ⟨hok, method, hm, hk, expression, he, ha⟩ := hr
  exact ⟨hok, method, hm, hk, expression, he, _, ha, rfl, by decide +kernel⟩

end AlRefactor
