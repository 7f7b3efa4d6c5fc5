import AlRefactor.Proofs.Action.Changes
import AlRefactor.Proofs.Action.Offers
import AlRefactor.Proofs.Edit.Declared
import AlRefactor.Proofs.Edit.Undeclared
import AlRefactor.Proofs.Token.Names

/-!
# What changes write

A local that moves is removed and declared by its line in the object. A label is declared under a plain
name that nothing in its procedure has, and this name takes the place of just the literal.
-/

namespace AlRefactor

open SyntaxTree

variable {text : Text} {n m o v : Node} {e : Edit} {es : List Edit}

/-! ## Locals that become globals -/

namespace MoveToGlobal

/-- The line that declares a local as a global. -/
def line (n : Node) : Text := (Variable.plain n.toVariable.name n.toVariable.type).sectionLine

/-- The edits remove a local from its section and declare a variable of its name and its type in the
object, where no global has the name. -/
structure Moves (text : Text) (n o : Node) (es : List Edit) (e : Edit) : Prop where
  parts : es = Node.undeclare [n] ++ [e]
  removes : Node.Removes text [n] (Node.undeclare [n])
  free : ∀ g ∈ o.globals, g.name.sameName n.toVariable.name = false
  place : ∃ c ∈ o.children, ∃ m, m.Place e.span.start ∧
    (c.kind = NodeKind.globalVarSection ∧ (m = c ∨ m ∈ c.children) ∨
      (c.kind.isMethod ∨ c.kind = TokenKind.rBrace) ∧ m = c ∧ m.Lead e.span.start)
  writes : e.text.Writes [line n] ∨ e.text.Writes ["var", line n]
  applies : Edit.apply es text = .ok (Edit.rewritten es 0 text)

/-- A local that may move is moved by its name and its type. -/
theorem moves_edits? {span : Span} (h : (parse text).ok)
    (hn : declarationAt? (parse text) span = some n) (he : edits? n = some es) :
    ∃ o e, n.object? = some o ∧ o.kind.isObject ∧ Moves text n o es e := by
  obtain ⟨m, v, hl⟩ := exists_isLocal h hn
  obtain ⟨-, happ⟩ := apply_edits? h hl he
  simp only [edits?, Option.bind_eq_bind, Option.bind_eq_some_iff] at he
  obtain ⟨o, ho, he⟩ := he
  obtain ⟨hon, hok, -⟩ := object_above h hl ho
  split at he
  · cases he
  rename_i hfree
  obtain ⟨e, hd, he⟩ := Option.bind_eq_some_iff.mp he
  cases he
  have hds : ∀ d ∈ [n], d ∈ (parse text).nodes := fun d hd => List.mem_singleton.mp hd ▸ hl.node
  refine ⟨o, e, ho, hok, rfl, Node.removes_undeclare h hds, fun g hg => ?_,
    Node.of_declare?_object hon hok hd, Node.writes_declare? hd, happ⟩
  exact Bool.eq_false_iff.mpr fun hs => hfree (List.any_eq_true.mpr ⟨g, hg, hs⟩)

/-- The line of a section has no place for attributes, so those of a local that moves are lost. -/
theorem edits?_drops :
    let text : Text := "codeunit 1 A \x7b\n  procedure P()\n  var\n    [NonDebuggable]\n    x: Integer;\n" ++
      "  begin\n  end;\n\x7d"
    let es : List Edit := [Edit.delete ⟨31, 73⟩, Edit.insert 15 "  var\n      x: Integer;\n\n"]
    (parse text).ok ∧ (∃ n, declarationAt? (parse text) ⟨64, 64⟩ = some n ∧
        n.toVariable.attributes = ["[NonDebuggable]".toList] ∧ edits? n = some es) ∧
      ∃ t, Edit.apply es text = .ok t ∧ (parse t).ok ∧ ∃ o ∈ (parse t).nodes,
        o.kind = NodeKind.codeunitObject ∧
          o.globals.map (fun g => (g.name, g.type, g.attributes)) =
            [("x".toList, "Integer".toList, [])] := by
  intro text es
  have hr : (parse text).ok ∧ ((declarationAt? (parse text) ⟨64, 64⟩).any fun n =>
      n.toVariable.attributes == ["[NonDebuggable]".toList] && edits? n == some es) := by
    decide +kernel
  have ha : Edit.apply es text = .ok (Edit.rewritten es 0 text) :=
    Edit.apply_apart (by decide) (by decide) (by decide)
  simp only [Option.any_eq_true, Bool.and_eq_true, beq_iff_eq] at hr
  exact ⟨hr.1, hr.2, _, ha, by decide +kernel⟩

end MoveToGlobal

/-! ## Names of labels -/

namespace Label

open Lexeme

theorem ending_mem (callee : Option Text) :
    ending callee ∈ ["Msg".toList, "Err".toList, "Qst".toList, "Lbl".toList] := by
  unfold ending
  dsimp only
  split
  · simp
  · split
    · simp
    · split <;> simp

/-- No keyword ends like the name of a label. -/
theorem not_isKeyword_ending (base : Text) (callee : Option Text) : ¬ Text.IsKeyword (base ++ ending callee) := by
  rintro ⟨e, he, hw⟩
  have hk : keywords.all fun e => ["msg".toList, "err".toList, "qst".toList, "lbl".toList].all
      fun s => !s.isSuffixOf e.1.toList := by decide
  have hk := List.all_eq_true.mp hk _ he
  rw [← hw, List.map_append] at hk
  have hs : ∀ s ∈ ["msg".toList, "err".toList, "qst".toList, "lbl".toList],
      ¬ s <:+ base.map foldCase ++ (ending callee).map foldCase := fun s hs hm => by
    have := List.all_eq_true.mp hk s hs
    rw [List.isSuffixOf_iff_suffix.mpr hm] at this
    cases this
  have hm := ending_mem callee
  generalize ending callee = e at hm hs
  simp only [List.mem_cons, List.not_mem_nil, or_false] at hm
  rcases hm with rfl | rfl | rfl | rfl
  · exact hs "msg".toList (by simp) (List.suffix_append ..)
  · exact hs "err".toList (by simp) (List.suffix_append ..)
  · exact hs "qst".toList (by simp) (List.suffix_append ..)
  · exact hs "lbl".toList (by simp) (List.suffix_append ..)

theorem isNamePart_wordName {w : Text} {d : Char} (h : d ∈ wordName w) : isNamePart d := by
  have hp : ∀ d ∈ Text.plain (w.dropWhile fun c => c == '%' || c == '#' || c.isDigit), isNamePart d :=
    fun d hd => Text.isNamePart_of_mem_plain hd
  rw [wordName] at h
  generalize Text.plain _ = t at hp h
  cases t with
  | nil => nomatch h
  | cons c t =>
      rcases List.mem_cons.mp h with rfl | h
      · exact Text.isNamePart_toUpper (hp c (List.mem_cons_self ..))
      · exact hp d (List.mem_cons_of_mem _ h)

theorem isPlainName_base (content : Text) : Text.IsPlainName (base content) := by
  have hp : ∀ d ∈ ((words content).flatMap wordName).take baseLength, isNamePart d := fun d hd => by
    obtain ⟨w, _, hw⟩ := List.mem_flatMap.mp (List.mem_of_mem_take hd)
    exact isNamePart_wordName hw
  rw [base]
  generalize ((words content).flatMap wordName).take baseLength = name at hp ⊢
  cases name with
  | nil => exact ⟨'T', "ext".toList, rfl, rfl, List.all_eq_true.mp (by decide)⟩
  | cons c name =>
      dsimp only
      split
      · refine ⟨'T', ("ext".toList ++ c :: name).take 25, rfl, rfl, fun d hd => ?_⟩
        rcases List.mem_append.mp (List.mem_of_mem_take hd) with hd | hd
        · exact List.all_eq_true.mp (by decide : "ext".toList.all isNamePart) d hd
        · exact hp d hd
      · rename_i hc
        refine ⟨c, name, rfl, ?_, fun d hd => hp d (List.mem_cons_of_mem _ hd)⟩
        have := hp c (List.mem_cons_self ..)
        simp only [isNamePart, isNameStart, Char.isAlphanum, Bool.or_eq_true] at this ⊢
        simp only [hc] at this
        simpa using this

theorem isNamePart_ending {callee : Option Text} {d : Char} (h : d ∈ ending callee) : isNamePart d := by
  have hm := ending_mem callee
  have hp : ["Msg".toList, "Err".toList, "Qst".toList, "Lbl".toList].all (·.all isNamePart) := by decide
  exact List.all_eq_true.mp (List.all_eq_true.mp hp _ hm) d h

/-- A made-up name is a plain identifier. -/
theorem isIdentifier_fresh (taken : List Text) (content : Text) (callee : Option Text) :
    (Text.fresh Text.sameName taken (base content ++ ending callee)).IsPlainName ∧
      (Text.fresh Text.sameName taken (base content ++ ending callee)).isIdentifier := by
  have hb := (isPlainName_base content).append fun d (hd : d ∈ ending callee) => isNamePart_ending hd
  rcases (Text.firstFree_fresh taken (base content ++ ending callee)).eq_or with hf | ⟨n, hf⟩
  · rw [hf]
    exact ⟨hb, hb.isIdentifier_iff.mpr (not_isKeyword_ending _ _)⟩
  · rw [hf]
    exact ⟨hb.append fun _ => Text.isNamePart_ofNat, hb.isIdentifier_numbered n⟩

/-! ## Literals that become labels -/

/-- A string literal has quotes at its ends. -/
theorem trim_string {t : Text} (h : TokenKind.Matches .stringLiteral t) : t.trim = t := by
  cases h with
  | mark h => revert h; simp [TokenKind.marks]
  | keyword h => revert h; simp [keywords]
  | @string u _ =>
      have hq : Text.isSpace '\'' = false := by decide
      simp [Text.trim, Text.trimWhere, List.dropWhile, hq]

/-- The literal that is found has a string among its leaves. -/
theorem exists_string {span : Span} (hn : literalAt? (parse text) span = some n) :
    ∃ c ∈ n.leaves, c.kind = TokenKind.stringLiteral := by
  obtain ⟨hnn, -⟩ := of_literalAt? hn
  simp only [literalAt?, Option.bind_eq_bind, Option.bind_eq_some_iff] at hn
  obtain ⟨a, -, c, hc, _, -, _, -, hn⟩ := hn
  split at hn
  · rename_i hk
    cases hn
    simp only [Bool.and_eq_true, Node.is, beq_iff_eq] at hk
    have hcm := List.mem_of_find?_eq_some hc
    have hcn := ((mem_subtree hnn).mp hcm).1
    exact ⟨c, List.mem_filter.mpr ⟨hcm, isLeaf_of_kind hcn hk.1 (by decide)⟩, hk.1⟩
  · cases hn

/-- The literal that is found is one token of the text, with its quotes. -/
theorem exists_literal {span : Span} (h : (parse text).ok)
    (hn : literalAt? (parse text) span = some n) :
    ∃ q ∈ text.significant, q.kind = .stringLiteral ∧ q.span = n.span ∧ n.text.trim = q.text := by
  obtain ⟨hnn, hnk⟩ := of_literalAt? hn
  obtain ⟨c, hc, hall, hs, he⟩ := exists_leaf h hnn hnk
  obtain ⟨d, hd, hk⟩ := exists_string hn
  obtain rfl := hall d hd
  obtain ⟨hdm, hleaf⟩ := List.mem_filter.mp hd
  have hdn := ((mem_subtree hnn).mp hdm).1
  obtain ⟨q, hq, hqk, hqs, hqt⟩ := exists_significant hdn hleaf
  have hspan : d.span = n.span := (congrArg₂ Span.mk hs he : Span.mk d.start d.stop = Span.mk n.start n.stop)
  have htext : n.text = d.text := by
    rw [Node.text, Node.text, hspan, mem_nodes.mp hnn, mem_nodes.mp hdn]
  refine ⟨q, hq, Kind.token.inj (hqk.trans hk), hqs.trans hspan, ?_⟩
  rw [htext, hqt]
  exact trim_string (matches_of_mem_lex (mem_lex_of_token hdn hk (by decide)) (by simp))

/-- The edits of a label declare it and put its name in the place of a literal. The name is a plain
identifier that nothing around has, and the declaration starts with the literal as it is written. -/
structure Labels (text : Text) (n m : Node) (es : List Edit) (e : Edit) (name literal : Text) :
    Prop where
  parts : es = [e, ⟨n.span, name⟩]
  replaces : ∃ q ∈ text.significant, q.kind = .stringLiteral ∧ q.span = n.span ∧ q.text = literal
  plain : name.IsPlainName ∧ name.isIdentifier
  free : ∀ t ∈ (TakenNames.ofMethod m).all, t.sameName name = false
  writes : ∃ comment, let line := (Variable.plain name ("Label " ++ literal ++ comment)).sectionLine
    e.text.Writes [line] ∨ e.text.Writes ["var", line]
  applies : Edit.apply es text = .ok (Edit.rewritten es 0 text)

theorem labels_edits? {ctx : Context} {span : Span} (h : (parse text).ok)
    (hn : literalAt? (parse text) span = some n) (he : edits? ctx n = some es) :
    ∃ m e name literal, n.method? = some m ∧ Labels text n m es e name literal := by
  obtain ⟨hnn, hnk⟩ := of_literalAt? hn
  obtain ⟨-, happ⟩ := apply_edits? h hnn hnk he
  obtain ⟨q, hq, hqk, hqs, hqt⟩ := exists_literal h hn
  simp only [edits?, Option.bind_eq_bind, Option.bind_eq_some_iff] at he
  obtain ⟨m, hm, e, hd, he⟩ := he
  rw [hqt] at hd he
  generalize hname : Text.fresh .. = name at hd he
  obtain ⟨comment, hd⟩ : ∃ comment, m.declare? (.plain name ("Label " ++ q.text ++ comment)) = some e :=
    ⟨_, hd⟩
  cases he
  exact ⟨m, e, name, q.text, hm, rfl, ⟨q, hq, hqk, hqs, rfl⟩, hname ▸ isIdentifier_fresh _ _ _,
    hname ▸ Text.fresh_not_same _ _, ⟨comment, Node.writes_declare? hd⟩, happ⟩

/-- The name takes the place of the literal without a blank, so a keyword that stood next to the closing
quote becomes a part of it. -/
theorem edits?_merges :
    let text : Text := "codeunit 1 A \x7b procedure P(x: Text) begin if x='a'then exit; end; \x7d"
    let es : List Edit := [Edit.insert 36 "\nvar\n    ALbl: Label 'a';\n", ⟨⟨47, 50⟩, "ALbl"⟩]
    let ctx : Context := ⟨.empty, .standard, .unknown⟩
    (parse text).ok ∧ (∃ n, literalAt? (parse text) ⟨47, 47⟩ = some n ∧ edits? ctx n = some es) ∧
      ∃ t, Edit.apply es text = .ok t ∧ (parse t).ok = false := by
  intro text es ctx
  have hr : (parse text).ok ∧ ((literalAt? (parse text) ⟨47, 47⟩).any fun n =>
      edits? ctx n == some es) := by decide +kernel
  have ha : Edit.apply es text = .ok (Edit.rewritten es 0 text) :=
    Edit.apply_apart (by decide) (by decide) (by decide)
  simp only [Option.any_eq_true, beq_iff_eq] at hr
  exact ⟨hr.1, hr.2, _, ha, by decide +kernel⟩

end Label

/-! ## Assignments to fields -/

namespace FieldAssignment

/-- Any word may stand behind a dot, but a keyword is no argument. -/
theorem validation_misreads :
    let text : Text := "codeunit 1 A { procedure P(Rec: Record X) begin Rec.End := 1; end; }"
    let es : List Edit := [⟨⟨48, 61⟩, "Rec.Validate(End, 1);"⟩]
    (parse text).ok ∧ (∃ a, at? (parse text) ⟨52, 52⟩ = some a ∧
        a.onRecord [(0, parse text)] ∧ [⟨a.statement.span, a.validation⟩] = es) ∧
      ∃ t, Edit.apply es text = .ok t ∧ (parse t).ok = false := by
  intro text es
  have hr : (parse text).ok ∧ ((at? (parse text) ⟨52, 52⟩).any fun a =>
      a.onRecord [(0, parse text)] && [⟨a.statement.span, a.validation⟩] == es) := by decide +kernel
  have ha : Edit.apply es text = .ok (Edit.rewritten es 0 text) :=
    Edit.apply_apart (by decide) (by decide) (by decide)
  simp only [Option.any_eq_true, Bool.and_eq_true, beq_iff_eq] at hr
  exact ⟨hr.1, hr.2, _, ha, by decide +kernel⟩

end FieldAssignment

end AlRefactor
