import AlRefactor.Proofs.Action.Variables
import AlRefactor.Proofs.Declaration.Objects

/-!
# Statements of a loop that become a procedure

A local that moves is not used by anything else of the loops around the statements: not in a condition or a
bound, not as a loop variable and not by their other statements. Whether the statements themselves read what
they left in it one turn of the loop before is not looked at.
-/

namespace AlRefactor

open SyntaxTree

variable {text : Text} {a b c m n l o r : Node} {s : Selection} {span : Span}

/-! ## Bodies -/

theorem Kind.not_member_of_isStatement {k : Kind} (h : k.isStatement) :
    k.isMember = false ∧ k.isObject = false ∧ k ≠ NodeKind.compilationUnit := by
  rcases k with k | k
  · cases h
  · cases k <;> first | exact ⟨rfl, rfl, by decide⟩ | cases h

/-- A procedure or trigger has at most one body, and that is the last of its composite parts. -/
theorem Pattern.mem_method_body {k : TokenKind} {w : List Symbol} (h : w ∈ (method k).matches') :
    ∃ x y, w = x ++ y ∧ (∀ s ∈ x, s.kind ≠ NodeKind.block) ∧ ∀ s ∈ y.tail, s.kind.isToken := by
  have ha : (method k).matches' = (methodHeader k * optional (node .varSection) *
      optional (node .block * optional (token .semicolon))).matches' := by
    simp only [method, methodHeader, RegularExpression.matches'_mul, mul_assoc]
  rw [ha] at h
  obtain ⟨x, hx, y, hy, rfl⟩ := h
  refine ⟨x, y, rfl, fun s hs => ?_, fun s hs => ?_⟩
  · have hp : (symbols (methodHeader k * optional (node .varSection))).all fun s =>
        s.kind != NodeKind.block := rfl
    simpa using all_symbols hp hx s hs
  · rcases hy with ⟨u, hu, v, hv, rfl⟩ | hy
    · have hp : (symbols (optional (token .semicolon))).all fun s => s.kind.isToken := rfl
      rw [show u = [.node .block] from hu] at hs
      exact all_symbols hp hv s hs
    · rw [show y = [] from hy] at hs
      cases hs

namespace SyntaxTree

theorem child?_block (h : (parse text).ok) (hm : m ∈ (parse text).nodes) (hk : m.kind.isMethod)
    (hc : c ∈ m.children) (hck : c.kind = NodeKind.block) : m.child? NodeKind.block = some c := by
  obtain ⟨k, hw⟩ := symbols_of_isMethod h hm hk
  obtain ⟨x, y, hxy, hx, hy⟩ := Pattern.mem_method_body hw
  obtain ⟨xs, ys, hch, rfl, rfl⟩ := List.map_eq_append_iff.mp hxy
  have hx : ∀ d ∈ xs, d.kind ≠ NodeKind.block := fun d hd => kind_symbol d ▸ hx _ (List.mem_map_of_mem hd)
  rw [hch] at hc
  have hc := (List.mem_append.mp hc).resolve_left fun hc => hx c hc hck
  cases ys with
  | nil => cases hc
  | cons d ys =>
      have hd : d = c := by
        rcases List.mem_cons.mp hc with hc | hc
        · exact hc.symm
        · have := hy c.symbol (List.mem_map_of_mem hc)
          rw [kind_symbol, hck] at this
          cases this
      have hn : xs.find? (·.is NodeKind.block) = none :=
        List.find?_eq_none.mpr fun d hd => by simpa [Node.is] using hx d hd
      rw [Node.child?, hch, List.find?_append, hn, Option.none_or, List.find?_cons, hd, Node.is, hck]
      rfl

/-- No procedure or trigger stands in a statement. -/
theorem not_below_statement (h : (parse text).ok) (hl : l ∈ (parse text).nodes)
    (hm : m ∈ (parse text).nodes) (hlk : l.kind.isStatement) (hmk : m.kind.isMethod) :
    ¬ Below (parse text).entries l.id m.id := by
  intro hb
  have hq := @below_induction text _ _ (fun a => a.kind.isMember = false ∧ a.kind.isObject = false ∧
    a.kind ≠ NodeKind.compilationUnit) (fun a ha hq c hc => ?_) hl hm hb (Kind.not_member_of_isStatement hlk)
  · rw [Kind.isMember, hmk] at hq
    cases hq.1
  · obtain ⟨_, _, hn⟩ | ⟨k, hak, hw⟩ := token_or_rule h ha
    · rw [hn] at hc
      cases hc
    · obtain ⟨hm, ho, hu⟩ := hak ▸ hq
      have hs : k ≠ .sectionDeclaration := by
        rintro rfl
        cases hm
      have hi := Pattern.all_symbols (NodeKind.symbols_of_not_isObject ho hs) hw c.symbol
        (List.mem_map_of_mem hc)
      have hj := Pattern.all_symbols (NodeKind.symbols_of_ne_compilationUnit fun hk => hu (hk ▸ rfl)) hw
        c.symbol (List.mem_map_of_mem hc)
      rw [kind_symbol] at hi hj
      simpa using And.intro hi hj

end SyntaxTree

/-! ## Loops -/

namespace Node

def isLoop (n : Node) : Bool :=
  n.isOneOf [.whileStatement, .repeatStatement, .forStatement, .forEachStatement]

/-- The name is given a value without being read: it is the target of a plain assignment or the variable of a
loop. -/
def isReplaced (r : Node) : Bool :=
  r.parent.any fun p => p.isOneOf [.assignmentStatement, .forStatement, .forEachStatement] &&
    r.isFirstBelow p

theorem isStatement_of_isLoop (h : l.isLoop) : l.kind.isStatement := by
  obtain ⟨k, hk, hlk⟩ := kind_of_isOneOf h
  rw [hlk]
  simp only [List.mem_cons, List.not_mem_nil, or_false] at hk
  rcases hk with rfl | rfl | rfl | rfl <;> rfl

end Node

/-- What a loop around the statements uses is used in the body of the procedure. -/
theorem Selection.Touches.mem_bodyUses {u : Span} {f e : Node} (ht : Touches text u b f e s)
    (h : (parse text).ok) (hm : s.statements.head?.bind (·.method?) = some m) (hn : n ∈ s.statements)
    (hl : l ∈ n.ancestors) (hk : l.isLoop) (hr : r ∈ l.variableUses) : r ∈ m.bodyUses := by
  have hbn := ht.block.1
  obtain ⟨hnb, _⟩ := ht.mem_statements hn
  obtain ⟨hfb, hfk, _⟩ := ht.mem_statements (List.mem_of_head? ht.first.1)
  have hnn := mem_nodes_of_child hbn hnb
  obtain ⟨hln, hlb⟩ := below_of_mem_ancestors hnn hl
  rw [ht.first.1, Option.bind_some] at hm
  have hmk : m.kind.isMethod := by simpa using List.find?_some hm
  -- The procedure around the first statement is the one around the block, so around all of them.
  have hmb : m ∈ b.ancestors := by
    have hmf := List.mem_of_find?_eq_some hm
    rw [ancestors_of_mem_children hbn hfb] at hmf
    refine (List.mem_cons.mp hmf).resolve_left fun he => ?_
    rw [he, (Kind.of_isStatement hfk).2.1] at hmk
    cases hmk
  obtain ⟨hmn, hmb⟩ := below_of_mem_ancestors hbn hmb
  have hlk := Node.isStatement_of_isLoop hk
  have hml := (below_or_below hmn hln (hmb.trans (below_of_mem_children hbn hnb)) hlb).resolve_right
    (not_below_statement h hln hmn hlk hmk)
  obtain ⟨c, hc, hck, hcl⟩ := exists_block_of_below h hmn hmk hln hlk hml
  obtain ⟨hrn, hlr, hrk, hrv⟩ := (Node.mem_variableUses hln).mp hr
  rw [Node.bodyUses, child?_block h hmn hmk hc hck]
  exact (Node.mem_variableUses (mem_nodes_of_child hmn hc)).mpr ⟨hrn, hcl.trans hlr, hrk, hrv⟩

namespace Extraction

/-- A local of a procedure is used by some of its statements and by nothing else in it, so by nothing else of
the loops around them. -/
structure Confined (m : Node) (s : Selection) (n : Node) : Prop where
  isLocal : n ∈ m.localDeclarations
  used : ∃ r ∈ s.uses, n.toVariable.name.sameName r.text
  body : ∀ r ∈ m.bodyUses, n.toVariable.name.sameName r.text → r ∈ s.uses
  loops : ∀ f ∈ s.statements, ∀ l ∈ f.ancestors, l.isLoop →
    ∀ r ∈ l.variableUses, n.toVariable.name.sameName r.text → r ∈ s.uses

/-- Where nothing is wrong with a text, what moves is used by the statements and by nothing else. -/
theorem confined (h : (parse text).ok) (hs : Selection.at? (parse text) span = .ok (some s))
    (hm : s.statements.head?.bind (·.method?) = some m) (hn : n ∈ (plan m s).removed) : Confined m s n := by
  obtain ⟨hl, hu, ho⟩ := of_mem_removed hn
  obtain ⟨u, b, f, e, ht⟩ := Selection.exists_touches hs
  have hmn := (inside_method h hs hm).1
  have hbody : ∀ r ∈ m.bodyUses, n.toVariable.name.sameName r.text → r ∈ s.uses := fun r hr hname => by
    obtain ⟨c, hc, _, hrc⟩ := Node.of_mem_bodyUses hr
    obtain ⟨hrn, _, hrk, hrv⟩ := (Node.mem_variableUses (mem_nodes_of_child hmn hc)).mp hrc
    exact (ht.mem_uses_iff h hrn hrk hrv).mpr (usedOutside_eq_false.mp ho r hr hname)
  exact ⟨hl, hu, hbody, fun f hf l hlf hk r hr => hbody r (ht.mem_bodyUses h hm hf hlf hk hr)⟩

/-- An extraction moves no local that carries a value from or to anything else than its statements: neither
to the rest of the procedure nor, where they stand in a loop, to the rest of the loop. -/
theorem confined_extract? {ctx : Context} {document : Nat} {r : ActionResult} {w : Progress}
    (h : (parse text).ok)
    (hr : ((extract? ctx document (parse text) span).run.run w).1 = .ok (some r)) :
    ∃ s m name es, Selection.at? (parse text) span = .ok (some s) ∧
      s.statements.head?.bind (·.method?) = some m ∧ r.change = Change.ofEdits document es ∧
      Carries name (plan m s) s.span es ∧ ∀ n ∈ (plan m s).removed, Confined m s n := by
  obtain ⟨s, m, o, name, es, hs, hm, _, he, hre⟩ := exists_of_extract? (Prod.ext hr rfl)
  exact ⟨s, m, name, es, hs, hm, hre, carries_edits? he, fun n hn => confined h hs hm hn⟩

/-- A loop whose only statement gives its local a value before it reads it. -/
theorem confined_extract?_turn :
    let text : Text := "codeunit 1 A \x7b procedure P() var n: Integer; begin while true do begin n := 1; " ++
      "end; end; \x7d"
    let ctx : Context := ⟨.empty, .standard, .unknown⟩
    let es : List Edit := [⟨⟨71, 78⟩, "NewProcedure();"⟩, Edit.insert 89
      "\nlocal procedure NewProcedure()\nvar\n    n: Integer;\nbegin\n    n := 1;\nend;\n",
      Edit.delete ⟨29, 44⟩]
    (parse text).ok ∧
      ((extract? ctx 0 (parse text) ⟨71, 78⟩).run.run ⟨.empty, .start .silent⟩).1 =
        .ok (some ⟨Change.ofEdits 0 es, some (0, 56)⟩) ∧
      ∃ s m name fs, Selection.at? (parse text) ⟨71, 78⟩ = .ok (some s) ∧
        s.statements.head?.bind (·.method?) = some m ∧ Change.ofEdits 0 es = Change.ofEdits 0 fs ∧
        Carries name (plan m s) s.span fs ∧ ∀ n ∈ (plan m s).removed, Confined m s n := by
  intro text ctx es
  have h : (parse text).ok := by decide +kernel
  have hr := eq_ok_of_toOption (x := ((extract? ctx 0 (parse text) ⟨71, 78⟩).run.run
    ⟨.empty, .start .silent⟩).1) (a := some ⟨Change.ofEdits 0 es, some (0, 56)⟩) (by decide +kernel)
  exact ⟨h, hr, confined_extract? h hr⟩

/-- The statements stand in a loop, and some local that moves is read before they give it a value. -/
def losesTurn (s : Selection) : Bool :=
  (s.statements.head?.any fun f => f.ancestors.tail.any (·.isLoop)) &&
    (s.statements.head?.bind (·.method?)).any fun m => (plan m s).removed.any fun n =>
      (s.uses.find? fun r => n.toVariable.name.sameName r.text).any fun r => !r.isReplaced

/-- The turns of a loop are not looked at: `n` counts them, and the new procedure starts with a new `n` in
each. -/
theorem extract?_loses_turn :
    let text : Text := "codeunit 1 A \x7b procedure P() var n: Integer; begin while true do begin n += 1; " ++
      "end; end; \x7d"
    let ctx : Context := ⟨.empty, .standard, .unknown⟩
    let es : List Edit := [⟨⟨71, 78⟩, "NewProcedure();"⟩, Edit.insert 89
      "\nlocal procedure NewProcedure()\nvar\n    n: Integer;\nbegin\n    n += 1;\nend;\n",
      Edit.delete ⟨29, 44⟩]
    (parse text).ok ∧
      ((extract? ctx 0 (parse text) ⟨71, 78⟩).run.run ⟨.empty, .start .silent⟩).1 =
        .ok (some ⟨Change.ofEdits 0 es, some (0, 56)⟩) ∧
      ∃ s, Selection.at? (parse text) ⟨71, 78⟩ = .ok (some s) ∧ losesTurn s := by
  intro text ctx es
  have h : (parse text).ok ∧
      ((extract? ctx 0 (parse text) ⟨71, 78⟩).run.run ⟨.empty, .start .silent⟩).1.toOption =
        some (some ⟨Change.ofEdits 0 es, some (0, 56)⟩) ∧
      (Selection.at? (parse text) ⟨71, 78⟩).toOption.join.any losesTurn := by decide +kernel
  obtain ⟨s, hs, hl⟩ := (Option.any_eq_true ..).mp h.2.2
  exact ⟨h.1, eq_ok_of_toOption h.2.1, s, eq_ok_of_toOption (Option.join_eq_some_iff.mp hs), hl⟩

end Extraction

end AlRefactor
