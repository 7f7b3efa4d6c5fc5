import AlRefactor.Proofs.Declaration.Gains
import AlRefactor.Proofs.Declaration.Parameters
import AlRefactor.Proofs.Edit.Overload

/-!
# Further parameters

Further parameters are put behind the last one or into the empty list. Where they keep apart from the tokens
beside them, the text is read again with these parameters behind the others, and as before otherwise.
-/

namespace AlRefactor.Node

open AlRefactor.Tree Lexeme SyntaxTree Grammar

variable {text t' : Text} {n n' : Node} {e : Edit} {missing : List Variable} {o : Hole} {j : Kind}
  {cs qs hts as bs rts us : List Tree} {r : Tree} {L S M : List Lexeme}

/-! ## The new text -/

/-- Further parameters between the tokens of a text and between the trees of its list. -/
structure Lengthens (text : Text) (o : Hole) (cs : List Tree) (e : Edit) (missing : List Variable)
    (qs hts as : List Tree) (r : Tree) (us bs rts : List Tree) (L S M : List Lexeme) : Prop where
  parts : cs = hts ++ .node NodeKind.parameterList (as ++ r :: bs) :: rts
  first : ∀ u ∈ hts, u.kind ≠ NodeKind.parameterList
  last : ∀ b ∈ bs, b.kind ≠ NodeKind.parameter
  cut : text.Cut L M e.span.start
  front : solid L = o.before ++ (leavesOf hts ++ (leavesOf as ++ r.leaves))
  lengthened : Lengthened qs (as ++ r :: bs) (as ++ r :: (us ++ bs))
  adds : Adds missing S us
  spliced : Spliced text (L.flatMap (·.text) ++ (e.text ++ M.flatMap (·.text))) L S M

section

variable (h : (parse text).ok) (hf : forest text = o.plug (.node j cs))
  (hs : Shows text o.before.length [n] [.node j cs]) (hv : ∀ v ∈ missing, v.Passable) (hm : missing ≠ [])
  (hq : List.Forall₂ Variable.PassedAs missing qs) {l : Node} (hl : n.child? NodeKind.parameterList = some l)

include h hf hs hv hm hq hl

theorem exists_lengthens_behind {p : Node} (hp : l.lastChild? NodeKind.parameter = some p)
    (ha : (Edit.insert p.stop ("; " ++ Variable.parameterList missing)).KeepsApart text) :
    ∃ hts as r us bs rts L S M, Lengthens text o cs (Edit.insert p.stop ("; " ++ Variable.parameterList missing))
      missing qs hts as r us bs rts L S M := by
  obtain ⟨ys, ws, hc, hpk, hws⟩ := exists_of_lastChild? hp
  obtain ⟨hts, as, r, bs, rts, L, M, hi⟩ := exists_inList hf hs hl hc
  obtain ⟨_, hbehind⟩ := hi.behind
  have hrk : r.kind = NodeKind.parameter := hi.kind.symm.trans hpk
  have hbs := hbehind.forall_kind (P := (· ≠ NodeKind.parameter)) hws
  obtain ⟨z, N, rfl, hz⟩ := hi.exists_next h hf (behind_parameter (hi.rule h hf).1 hrk hbs)
  exact ⟨hts, as, r, separated qs, bs, rts, L, Variable.furtherLexemes missing, z :: N, hi.parts, hi.first, hbs,
    hi.cut, hi.front, .behind hrk hbs, adds_separated hv hq,
    Variable.spliced_behind hv hm ha (Variable.separated_parameterList hm) hi.cut hi.closes hz⟩

theorem exists_lengthens_into {b : Node} (hn : l.lastChild? NodeKind.parameter = none)
    (hb : l.child? TokenKind.lParen = some b)
    (ha : (Edit.insert b.stop (Variable.parameterList missing)).KeepsApart text) :
    ∃ hts as r us bs rts L S M, Lengthens text o cs (Edit.insert b.stop (Variable.parameterList missing))
      missing qs hts as r us bs rts L S M := by
  obtain ⟨hbk, ys, ws, hc, hys⟩ := List.find?_eq_some_iff_append.mp hb
  have hno : ∀ x ∈ l.children, x.kind ≠ NodeKind.parameter := fun x hx => by
    simpa [is] using List.filter_eq_nil_iff.mp (List.getLast?_eq_none_iff.mp hn) x hx
  obtain ⟨hts, as, r, bs, rts, L, M, hi⟩ := exists_inList hf hs hl hc
  obtain ⟨_, hbefore⟩ := hi.before
  obtain ⟨_, hbehind⟩ := hi.behind
  have hrk : r.kind = TokenKind.lParen := hi.kind.symm.trans (by simpa [is] using hbk)
  have has := hbefore.forall_kind (P := (· ≠ TokenKind.lParen)) fun x hx => by simpa [is] using hys x hx
  have hall : ∀ u ∈ as ++ r :: bs, u.kind ≠ NodeKind.parameter := by
    rw [hc] at hno
    obtain ⟨hyp, hwp⟩ := List.forall_mem_append.mp hno
    refine List.forall_mem_append.mpr ⟨hbefore.forall_kind (P := (· ≠ NodeKind.parameter)) hyp,
      List.forall_mem_cons.mpr ⟨by rw [hrk]; decide, ?_⟩⟩
    exact hbehind.forall_kind (P := (· ≠ NodeKind.parameter)) fun x hx => hwp x (List.mem_cons_of_mem _ hx)
  obtain ⟨z, N, rfl, hz⟩ := hi.exists_next h hf ⟨_, _, behind_lParen (hi.rule h hf).1 hrk hall, .inr rfl⟩
  obtain ⟨ms, rfl⟩ := hi.exists_bracket h hf hrk
  obtain ⟨v, vs, rfl⟩ := List.exists_cons_of_ne_nil hm
  exact ⟨hts, as, r, (separated qs).tail, bs, rts, ms ++ [lParen], lex v.declaration ++ Variable.furtherLexemes vs,
    z :: N, hi.parts, hi.first, fun u hu => hall u (by simp [hu]), hi.cut, hi.front, .into has hrk hall,
    adds_listed hv hq, Variable.spliced_into hv ha rfl hi.cut hz⟩

end

theorem Extends.eq_insert (h : n.Extends missing e) : e = Edit.insert e.span.start e.text := by
  cases h <;> rfl

theorem parameters_of_list {i : Nat} {ps : List Tree} (hs : Shows text i n.children cs)
    (hc : cs = hts ++ .node NodeKind.parameterList ps :: rts) (hf : ∀ u ∈ hts, u.kind ≠ NodeKind.parameterList) :
    ∃ ns, Shows text (i + (leavesOf hts).length) ns ps ∧ n.parameters.map Variable.passed =
      (ns.filter (·.is NodeKind.parameter)).map (·.toParameter.passed) := by
  rw [hc] at hs
  obtain ⟨l, hl, hls⟩ := child?_of_shows hs hf rfl
  refine ⟨l.children, hls.children, ?_⟩
  rw [parameters, parameterNodes, hl, List.map_map]
  rfl

/-- A text is read with further parameters in a procedure of another text, and otherwise with the tokens and
the trees of this text. -/
structure AddsParameters (text t' : Text) (e : Edit) (missing : List Variable) (n n' : Node) : Prop where
  ok : (parse t').ok
  mem : n' ∈ (parse t').nodes
  id : n'.id = n.id
  tokens : ∃ L S M, Spliced text t' L S M ∧ S.flatMap (·.text) = e.text
  trees : ∃ (o : Hole) (t u : Tree) (hs ps ps' rs qs : List Tree),
    (Tree.node NodeKind.compilationUnit (o.plug t)).ShownBy (parse text).root ∧ t.ShownBy n ∧
    (Tree.node NodeKind.compilationUnit (o.plug u)).ShownBy (parse t').root ∧ u.ShownBy n' ∧
    t = .node n.kind (hs ++ .node NodeKind.parameterList ps :: rs) ∧
    u = .node n.kind (hs ++ .node NodeKind.parameterList ps' :: rs) ∧
    List.Forall₂ Variable.PassedAs missing qs ∧ Lengthened qs ps ps'
  parameters : n'.parameters.map Variable.passed = n.parameters.map Variable.passed ++ missing.map Variable.passed

/-- The children of a node in two texts are the same, but for the list of parameters. -/
def KeepsRest (text t' : Text) (n n' : Node) : Prop :=
  ∃ (L S M : List Lexeme) (xs xs' : List Node) (l l' : Node) (ys ys' : List Node), Spliced text t' L S M ∧
    n.children = xs ++ l :: ys ∧ n'.children = xs' ++ l' :: ys' ∧
    l.kind = NodeKind.parameterList ∧ l'.kind = NodeKind.parameterList ∧
    List.Forall₂ (Twin text t' L S) xs xs' ∧ List.Forall₂ (Twin text t' L S) ys ys'

/-- What stands around a list that gets longer stands before or behind what is put into the list. -/
theorem keepsRest_of_shows {i : Nat} {ps ps' : List Tree} (hS : Spliced text t' L S M)
    (h : Shows text i n.children (hts ++ .node NodeKind.parameterList ps :: rts))
    (h' : Shows t' i n'.children (hts ++ .node NodeKind.parameterList ps' :: rts))
    (hL : i + (leavesOf hts).length ≤ (solid L).length)
    (hps : (solid L).length ≤ i + (leavesOf hts).length + (leavesOf ps).length)
    (hps' : (leavesOf ps').length = (leavesOf ps).length + (solid S).length) : KeepsRest text t' n n' := by
  obtain ⟨xs, ys, hc, hx, hy⟩ := h.split_trees
  obtain ⟨xs', ys', hc', hx', hy'⟩ := h'.split_trees
  cases hy with
  | @cons _ l ys _ _ _ hlk _ _ hy =>
  cases hy' with
  | @cons _ l' ys' _ _ _ hlk' _ _ hy' =>
  refine ⟨L, S, M, xs, xs', l, l', ys, ys', hS, hc, hc', hlk, hlk', twins (.inl ⟨rfl, by omega⟩) hx hx',
    twins (.inr ?_) hy hy'⟩
  simp only [Tree.leaves]
  omega

namespace Lengthens

section

variable (H : Lengthens text o cs e missing qs hts as r us bs rts L S M)

include H

theorem apply_eq (he : n.Extends missing e) :
    Edit.apply [e] text = .ok (L.flatMap (·.text) ++ (e.text ++ M.flatMap (·.text))) := by
  have ha := Edit.apply_single (L.flatMap (·.text)) [] (M.flatMap (·.text)) e.text
  rw [List.nil_append, ← H.cut.text_eq, H.cut.size_eq] at ha
  rw [he.eq_insert]
  exact ha

/-- Every text is the one of its lexemes, so what stands between the old ones spells the insertion. -/
theorem spells : S.flatMap (·.text) = e.text := by
  have hl := flatMap_text_lex (L.flatMap (·.text) ++ (e.text ++ M.flatMap (·.text)))
  rw [H.spliced.eq', List.flatMap_append, List.flatMap_append] at hl
  exact List.append_cancel_right (List.append_cancel_left hl)

/-- The procedure is read in the new text with the longer list in the place of its list. -/
theorem exists_shows (h : (parse text).ok) (hf : forest text = o.plug (.node j cs)) (hj : j.isMethod)
    (hq : List.Forall₂ Variable.PassedAs missing qs) (hm : missing ≠ [])
    (hS : Spliced text t' L S M) : (parse t').ok ∧
      forest t' = o.plug (.node j (hts ++ .node NodeKind.parameterList (as ++ r :: (us ++ bs)) :: rts)) ∧
      ∃ n' ∈ (parse t').nodes, n'.id = o.number + 1 ∧ Shows t' o.before.length [n']
        [.node j (hts ++ .node NodeKind.parameterList (as ++ r :: (us ++ bs)) :: rts)] := by
  have hqs : qs ≠ [] := by
    rintro rfl
    exact hm (List.forall₂_nil_right_iff.mp hq)
  rw [H.parts] at hf
  have hx : Exchanges (.node j (hts ++ .node NodeKind.parameterList (as ++ r :: bs) :: rts))
      (.node j (hts ++ .node NodeKind.parameterList (as ++ r :: (us ++ bs)) :: rts)) :=
    exchanges_lengthened (Variable.passes_of_passedAs hq) hqs hj H.first H.lengthened
  obtain ⟨hok, hf'⟩ := forest_swapped (P := leavesOf hts ++ (leavesOf as ++ r.leaves))
    (Q := leavesOf bs ++ leavesOf rts) h hf (.method hx) hS (by simp [Tree.leaves, leavesOf])
    (by simp [Tree.leaves, leavesOf, H.adds.leaves]) (by rw [H.front, List.length_append])
  exact ⟨hok, hf', SyntaxTree.exists_shows hok hf'⟩

variable (hS : Spliced text t' L S M) (hs : Shows text o.before.length n.children cs)
  (hs' : Shows t' o.before.length n'.children
    (hts ++ .node NodeKind.parameterList (as ++ r :: (us ++ bs)) :: rts))

include hS hs hs'

theorem keepsRest : KeepsRest text t' n n' := by
  have hlength := congrArg List.length H.front
  simp only [List.length_append] at hlength
  refine keepsRest_of_shows hS (H.parts ▸ hs) hs' ?_ ?_ ?_
  · omega
  · simp only [leavesOf_append, leavesOf, List.length_append]
    omega
  · simp only [leavesOf_append, leavesOf, H.adds.leaves, List.length_append]
    omega

theorem map_parameters :
    n'.parameters.map Variable.passed = n.parameters.map Variable.passed ++ missing.map Variable.passed := by
  obtain ⟨ns, hns, hold⟩ := parameters_of_list hs H.parts H.first
  obtain ⟨ms, hms, hnew⟩ := parameters_of_list hs' rfl H.first
  rw [hold, hnew]
  rw [List.append_cons] at hns hms
  refine map_passed_append hS H.adds hns hms ?_ H.last
  rw [H.front]
  simp [leavesOf, Nat.add_assoc]

end

end Lengthens

/-- Where further parameters keep apart from the tokens beside them, the new text is without errors, the procedure
or trigger has them behind its other parameters, and all else is read as before. -/
theorem exists_addsParameters (h : (parse text).ok) (hn : n ∈ (parse text).nodes) (hk : n.kind.isMethod)
    (hv : ∀ v ∈ missing, v.Passable) (hm : missing ≠ []) (he : n.Extends missing e) (ha : e.KeepsApart text) :
    ∃ t' n', Edit.apply [e] text = .ok t' ∧ AddsParameters text t' e missing n n' ∧ KeepsRest text t' n n' := by
  obtain ⟨o, j, cs, hf, hi, hs⟩ := exists_scopeTree h hn (.inl hk)
  have hnj : n.kind = j := hs.kind
  obtain ⟨qs, hq⟩ := Variable.exists_passedAs hv
  obtain ⟨hts, as, r, us, bs, rts, L, S, M, H⟩ :
      ∃ hts as r us bs rts L S M, Lengthens text o cs e missing qs hts as r us bs rts L S M := by
    cases he with
    | behind hl hp => exact exists_lengthens_behind h hf hs hv hm hq hl hp ha
    | into hl hno hb => exact exists_lengthens_into h hf hs hv hm hq hl hno hb ha
  have happly := H.apply_eq he
  have hS := H.spliced
  generalize L.flatMap (·.text) ++ (e.text ++ M.flatMap (·.text)) = t' at happly hS
  obtain ⟨hok, hf', n', hn', hi', hs'⟩ := H.exists_shows h hf (hnj ▸ hk) hq hm hS
  refine ⟨t', n', happly, ⟨hok, hn', hi'.trans hi.symm, ⟨L, S, M, hS, H.spells⟩, ⟨o, .node j cs, _, hts, _, _, rts,
    qs, ?_, ?_, ?_, ?_, by rw [hnj, H.parts], by rw [hnj], hq, H.lengthened⟩,
    H.map_parameters hS hs.children hs'.children⟩, H.keepsRest hS hs.children hs'.children⟩
  · rw [← hf]
    exact root_shows text
  · exact shownBy_of_plug hf hn hi
  · rw [← hf']
    exact root_shows t'
  · exact shownBy_of_plug hf' hn' hi'

/-- Further parameters can be given to every procedure and trigger of a text without errors. Where they keep
apart from the tokens beside them, the new text is without errors, the procedure or trigger has them behind its
other parameters, and nothing else changes. -/
theorem extendParameters?_adds (h : (parse text).ok) (hn : n ∈ (parse text).nodes) (hk : n.kind.isMethod)
    (hv : ∀ v ∈ missing, v.Passable) (hm : missing ≠ []) :
    ∃ e, n.extendParameters? missing = some e ∧ (e.KeepsApart text →
      ∃ t' n', Edit.apply [e] text = .ok t' ∧ AddsParameters text t' e missing n n') := by
  obtain ⟨e, he, hx⟩ := exists_extends h hn hk hm
  refine ⟨e, he, fun ha => ?_⟩
  obtain ⟨t', n', happly, hadds, -⟩ := exists_addsParameters h hn hk hv hm hx ha
  exact ⟨t', n', happly, hadds⟩

/-- Behind the last parameter a comment and a semicolon of their own may stand. -/
theorem extendParameters?_adds_two :
    let text : Text := "codeunit 1 A \x7b trigger OnRun(x: Option a/ /*b*/;) begin end; \x7d"
    let missing := [Variable.plain "y" "Integer", (Variable.plain "\"a b\"" "Text[20]").withReference true]
    (parse text).ok ∧ (∀ v ∈ missing, v.Passable) ∧
      ∃ n ∈ (parse text).nodes, n.kind.isMethod ∧ ∃ e, n.extendParameters? missing = some e ∧ e.KeepsApart text ∧
        ∃ t' n', Edit.apply [e] text = .ok t' ∧ AddsParameters text t' e missing n n' := by
  intro text missing
  let e := Edit.insert 41 "; y: Integer; var \"a b\": Text[20]"
  have hn : (parse text).ok ∧ ∃ n ∈ (parse text).nodes, n.kind = NodeKind.triggerDeclaration ∧
      n.extendParameters? missing = some e := by decide +kernel
  obtain ⟨hok, n, hm, hk, he⟩ := hn
  have hk : n.kind.isMethod := by rw [hk]; rfl
  have hv : ∀ v ∈ missing, v.Passable := by
    have hy : lex "Integer".toList = [⟨.ident, "Integer".toList⟩] := by decide +kernel
    have hz : lex "Text[20]".toList =
        [⟨.ident, "Text".toList⟩, ⟨.lBracket, ['[']⟩, ⟨.intLiteral, "20".toList⟩, ⟨.rBracket, [']']⟩] := by
      decide +kernel
    intro v hv
    rcases List.mem_pair.mp hv with rfl | rfl
    · refine ⟨by decide +kernel, ?_, ?_, by decide +kernel, by decide +kernel⟩
      · exact ⟨_, _, hy, rfl⟩
      · exact ⟨[], _, hy, rfl, by decide⟩
    · refine ⟨by decide +kernel, ?_, ?_, by decide +kernel, by decide +kernel⟩
      · exact ⟨_, _, hz, rfl⟩
      · exact ⟨[_, _, _], _, hz, rfl, by decide⟩
  have ha : e.KeepsApart text := ⟨by decide +kernel, by decide +kernel⟩
  obtain ⟨e', he', hadds⟩ := extendParameters?_adds hok hm hk hv (List.cons_ne_nil _ _)
  obtain rfl : e = e' := Option.some.inj (he.symm.trans he')
  exact ⟨hok, hv, n, hm, hk, e, he, ha, hadds ha⟩

/-- An unclosed literal takes in what is put behind it on its line: a list that ends with one does not
get the further parameter, which becomes a part of the last type. -/
theorem extendParameters?_swallowed :
    let text : Text := "codeunit 1 A \x7b procedure P(x: Option 'abc\n) begin end; \x7d"
    let e := Edit.insert 41 "; y: Integer"
    (parse text).ok ∧
      (∃ n ∈ (parse text).nodes, n.kind = NodeKind.methodDeclaration ∧
        n.extendParameters? [Variable.plain "y" "Integer"] = some e) ∧
      ∃ t, Edit.apply [e] text = .ok t ∧ (parse t).ok ∧
        ∀ n ∈ (parse t).nodes, n.kind = NodeKind.methodDeclaration →
          n.parameters.map (fun v => (v.name, v.type)) =
            [("x".toList, "Option 'abc; y: Integer".toList)] := by
  intro text e
  have hn : (parse text).ok ∧ ∃ n ∈ (parse text).nodes, n.kind = NodeKind.methodDeclaration ∧
      n.extendParameters? [Variable.plain "y" "Integer"] = some e := by decide +kernel
  have ha : Edit.apply [e] text = .ok (Edit.rewritten [e] 0 text) :=
    Edit.apply_apart (by decide) (by decide) (by decide)
  exact ⟨hn.1, hn.2, _, ha, by decide +kernel⟩

/-- A slash at the end of a type makes a comment with what stands behind it: then the list is not closed. -/
theorem extendParameters?_commented :
    let text : Text := "codeunit 1 A \x7b procedure P(x: Integer/**/) begin end; \x7d"
    let e := Edit.insert 37 "; y: Option a/"
    (parse text).ok ∧
      (∃ n ∈ (parse text).nodes, n.kind = NodeKind.methodDeclaration ∧
        n.extendParameters? [Variable.plain "y" "Option a/"] = some e) ∧
      (∀ q ∈ text.tokens, q.stop = e.span.start → q.kind ≠ .error) ∧
      ∃ t, Edit.apply [e] text = .ok t ∧ (parse t).ok = false := by
  intro text e
  have hn : (parse text).ok ∧ ∃ n ∈ (parse text).nodes, n.kind = NodeKind.methodDeclaration ∧
      n.extendParameters? [Variable.plain "y" "Option a/"] = some e := by decide +kernel
  have ha : Edit.apply [e] text = .ok (Edit.rewritten [e] 0 text) :=
    Edit.apply_apart (by decide) (by decide) (by decide)
  exact ⟨hn.1, hn.2, by decide +kernel, _, ha, by decide +kernel⟩

end AlRefactor.Node
