import AlRefactor.Proofs.Edit.Insertion
import AlRefactor.Proofs.Syntax.Offsets

/-!
# Overloads

Where a procedure gets further parameters, its old header is kept by a procedure of its own that calls
it with something for each of them. Two insertions do this, and nothing else of the text changes.
-/

namespace AlRefactor

open SyntaxTree

variable {text : Text} {n : Node} {missing : List Variable} {obsolete : Bool}
  {version : Option Text} {e : Edit}

/-! ## Two insertions -/

namespace Edit

theorem rewritten_insert {es : List Edit} {p : Nat} (s t : Text)
    (h : ∀ e ∈ es, p ≤ e.span.start) :
    rewritten (insert p s :: es) p t = s ++ rewritten es p t :=
  rewritten_at (e := insert p s) (m := []) rfl h

theorem rewritten_pair (a b c s t : Text) :
    rewritten [insert a.size s, insert (a ++ b).size t] 0 (a ++ (b ++ c)) =
      a ++ (s ++ (b ++ (t ++ c))) := by
  have hs : (a ++ b).size = a.size + b.size := Text.size_append a b
  calc rewritten [insert a.size s, insert (a ++ b).size t] 0 (a ++ (b ++ c))
    _ = a ++ rewritten [insert a.size s, insert (a ++ b).size t] a.size (b ++ c) := by
        rw [rewritten_before (by simp [insert, Span.empty, hs]), Nat.zero_add]
    _ = a ++ (s ++ rewritten [insert (a ++ b).size t] a.size (b ++ c)) := by
        rw [rewritten_insert _ _ (by simp [insert, Span.empty, hs])]
    _ = a ++ (s ++ (b ++ rewritten [insert (a ++ b).size t] (a ++ b).size c)) := by
        rw [rewritten_before (by simp [insert, Span.empty, hs]), hs]
    _ = a ++ (s ++ (b ++ (t ++ c))) := by
        rw [rewritten_insert _ _ (by simp), rewritten_nil]

theorem Adds.eq_insert (h : e.Adds text) : e = insert e.span.start e.text := by
  obtain ⟨⟨p, q⟩, t⟩ := e
  obtain rfl : p = q := h.1
  rfl

/-- Two insertions between tokens cut a text in three. -/
theorem exists_apply_pair {f : Edit} (he : e.Adds text) (hf : f.Adds text)
    (hle : e.span.start ≤ f.span.start) : ∃ a b c, text = a ++ (b ++ c) ∧
      a.size = e.span.start ∧ (a ++ b).size = f.span.start ∧
      apply [e, f] text = .ok (a ++ (e.text ++ (b ++ (f.text ++ c)))) := by
  obtain ⟨a, r, ht, ha⟩ := Text.isBoundary_iff.mp he.2.boundary
  obtain ⟨u, c, hu, hb⟩ := Text.isBoundary_iff.mp hf.2.boundary
  obtain ⟨b, rfl, hr⟩ := Text.exists_append_of_le (ht.symm.trans hu) (by omega)
  have htext : text = a ++ (b ++ c) := hr ▸ ht
  refine ⟨a, b, c, htext, ha, hb, ?_⟩
  rw [apply_adds (by simpa using ⟨he, hf⟩), he.eq_insert, hf.eq_insert, ← ha, ← hb, htext,
    rewritten_pair]
  rfl

end Edit

/-! ## What is added -/

namespace Variable

/-- What a call gives for a further parameter: a literal of its type if there is one, otherwise a
variable of the parameter's name. -/
def Supplies (v : Variable) (argument : Text) : Prop :=
  v.type.defaultValue? = some argument ∨ v.type.defaultValue? = none ∧ argument = v.name

/-- The lines that declare what no literal stands for. -/
def declarationLines (missing : List Variable) : List Text :=
  let locals := missing.filter (·.type.defaultValue?.isNone)
  if locals.isEmpty then [] else ("var" : Text) :: locals.map sectionLine

end Variable

namespace Node

/-- The statement gives what a call returns to the caller of a procedure, if the procedure returns
anything. -/
inductive Returns (n : Node) (call : Text) : Text → Prop where
  | nothing : n.returnValue? = none → Returns n call (call ++ ";")
  | unnamed {r} : n.returnValue? = some r → r.name = none → Returns n call ("exit(" ++ call ++ ");")
  | named {r name} : n.returnValue? = some r → r.name = some name →
      Returns n call (name ++ " := " ++ call ++ ";")

/-- A procedure with the header of another one, which it calls with its own parameters and with one
argument for each further parameter. -/
def Forwards (n : Node) (missing : List Variable) (obsolete : Bool) (version : Option Text)
    (block : Text) : Prop :=
  ∃ name header given statement, n.name = some name ∧ n.header? = some header ∧
    List.Forall₂ Variable.Supplies missing given ∧
    n.Returns (name ++ "(" ++ Text.join ", " (n.parameters.map (·.name) ++ given) ++ ")")
      statement ∧
    block.Writes (
      (if obsolete then [obsoleteLine (n.parameters.length + missing.length) version] else []) ++
        [header] ++ Variable.declarationLines missing ++ [("begin" : Text), statement, "end;"])

/-- Further parameters go behind the last one, or into the empty list. -/
inductive Extends (n : Node) (missing : List Variable) : Edit → Prop where
  | behind {l p} : n.child? NodeKind.parameterList = some l →
      l.lastChild? NodeKind.parameter = some p →
      Extends n missing (Edit.insert p.stop ("; " ++ Variable.parameterList missing))
  | into {l b} : n.child? NodeKind.parameterList = some l →
      l.lastChild? NodeKind.parameter = none → l.child? TokenKind.lParen = some b →
      Extends n missing (Edit.insert b.stop (Variable.parameterList missing))

theorem forwards_overloadLines {name header rest : Text} (hn : n.name = some name)
    (hh : n.header? = some header) (hr : rest.IsLayout) :
    n.Forwards missing obsolete version (Text.join n.tree.text.newline
      (n.overloadLines name header missing obsolete version) ++ rest) := by
  have hi := n.isLayout_lineIndent
  have hu := hi.append (Text.isLayout_indentUnit n.lineIndent)
  refine ⟨name, header, missing.map fun v => (v.type.defaultValue?).getD v.name,
    n.forwardingStatement name missing, hn, hh, ?_, ?_, ?_⟩
  · refine List.forall₂_map_right_iff.mpr (List.forall₂_same.mpr fun v _ => ?_)
    cases hv : v.type.defaultValue? with
    | none => exact .inr ⟨hv, rfl⟩
    | some t => exact .inl hv
  · rw [forwardingStatement]
    split
    · split
      · exact .named ‹_› ‹_›
      · exact .unnamed ‹_› ‹_›
    · exact .nothing ‹_›
  · refine Text.writes_join (Text.isLayout_newline _) hr ?_
    have hl : ∀ l : Text, Text.Indents (n.lineIndent ++ l) l := fun l => ⟨_, hi, rfl⟩
    have hb : ∀ l : Text, Text.Indents (n.lineIndent ++ n.lineIndent.indentUnit ++ l) l :=
      fun l => ⟨_, hu, rfl⟩
    refine List.rel_append (List.rel_append (List.rel_append ?_ (.cons (hl _) .nil)) ?_)
      (.cons (hl _) (.cons (hb _) (.cons (hl _) .nil)))
    · split
      · exact .cons (hl _) .nil
      · exact .nil
    · rw [Variable.declarationLines]
      split
      · exact .nil
      · refine .cons (hl _) (List.forall₂_map_left_iff.mpr (List.forall₂_map_right_iff.mpr ?_))
        exact List.forall₂_same.mpr fun v _ => hb _

section Procedure

variable (h : (parse text).ok) (hn : n ∈ (parse text).nodes)
  (hk : n.kind = NodeKind.methodDeclaration)

include h hn hk

theorem exists_header : ∃ header, n.header? = some header := by
  obtain ⟨w, hw⟩ := exists_child? h hn hk (j := TokenKind.kwProcedure) rfl
  obtain ⟨l, hl⟩ := exists_child? h hn hk (j := NodeKind.parameterList) rfl
  have hf : (n.children.find? fun c => !c.is NodeKind.memberAttribute).isSome := by
    obtain ⟨hwn, hwk⟩ := mem_of_child? hw
    exact List.find?_isSome.mpr ⟨w, hwn, by rw [Node.is, hwk]; rfl⟩
  obtain ⟨first, hf⟩ := Option.isSome_iff_exists.mp hf
  rw [header?, hf, hl]
  cases n.child? NodeKind.returnValue with
  | none | some r => exact ⟨_, rfl⟩

omit hk in
theorem exists_extends (hk : n.kind.isMethod) (hm : missing ≠ []) :
    ∃ e, n.extendParameters? missing = some e ∧ n.Extends missing e := by
  obtain ⟨l, hl⟩ : ∃ l, n.child? NodeKind.parameterList = some l := by
    obtain hk | hk : n.kind = NodeKind.methodDeclaration ∨ n.kind = NodeKind.triggerDeclaration := by
      cases hj : n.kind with
      | token k => simp [hj, Kind.isMethod, Kind.isNodeOf] at hk
      | node k => simpa [hj, Kind.isMethod, Kind.isNodeOf, NodeKind.isMethod, NodeKind.methods] using hk
    · exact exists_child? h hn hk rfl
    · exact exists_child? h hn hk rfl
  obtain ⟨hln, hlk⟩ := mem_of_child? hl
  obtain ⟨b, hb⟩ := exists_child? h (mem_nodes_of_child hn hln) hlk (j := TokenKind.lParen) rfl
  rw [extendParameters?, if_neg (by simpa using hm), hl, Option.bind_some]
  cases hp : l.lastChild? NodeKind.parameter with
  | some p => exact ⟨_, rfl, .behind hl hp⟩
  | none => exact ⟨_, by rw [hb]; rfl, .into hl hp hb⟩

omit h hk in
theorem Extends.start_le (he : n.Extends missing e) : n.start ≤ e.span.start := by
  have hle : ∀ {l m : Node}, l ∈ n.children → m ∈ l.children → n.start ≤ m.stop :=
    fun {l m} hl hm => by
      have hln := mem_nodes_of_child hn hl
      calc n.start ≤ l.start := (covers_of_mem_children hn hl).1
        _ ≤ m.start := (covers_of_mem_children hln hm).1
        _ ≤ m.stop := (ranged (mem_nodes_of_child hln hm)).start_le_stop
  cases he with
  | behind hl hp => exact hle (mem_of_child? hl).1 (mem_of_lastChild? hp).1
  | into hl _ hb => exact hle (mem_of_child? hl).1 (mem_of_child? hb).1

/-- Where nothing is wrong with a text, further parameters can be given to every procedure. What is
added is the parameters and, at the start of the line of the procedure, one with the old header that
calls it. Nothing else changes, and if the procedure starts its line, nothing but blanks comes between
the two. -/
theorem apply_addOverload (hm : missing ≠ []) : ∃ block e a b c,
    n.addOverload missing obsolete version = [Edit.insert n.lineStart block, e] ∧
      n.Forwards missing obsolete version block ∧ n.Extends missing e ∧
      text = a ++ (b ++ c) ∧ a.size = n.lineStart ∧ (a ++ b).size = e.span.start ∧
      Edit.apply (n.addOverload missing obsolete version) text =
        .ok (a ++ (block ++ (b ++ (e.text ++ c)))) ∧
      (∀ f ∈ n.addOverload missing obsolete version, f.Adds text) ∧
      (n.startsLine → text.Bare n.lineStart n.start) := by
  obtain ⟨name, hname⟩ := exists_name h hn (by rw [hk]; rfl)
  obtain ⟨header, hheader⟩ := exists_header h hn hk
  obtain ⟨e, he, hx⟩ := exists_extends h hn (by rw [hk]; rfl) hm
  have hnl := Text.isLayout_newline n.tree.text
  obtain ⟨block, hf, ha⟩ : ∃ block, n.Forwards missing obsolete version block ∧
      n.addOverload missing obsolete version = [Edit.insert n.lineStart block, e] := by
    refine ⟨_, forwards_overloadLines hname hheader (hnl.append hnl), ?_⟩
    rw [addOverload, hname, hheader, he, ← List.append_assoc]
  have hi : n.id ≠ 0 := fun hi => by cases hk.symm.trans (kind_root hn hi)
  have hadd := Edit.adds_insert (seam_lineStart h hn hi) block
  have hadds := (beside_extendParameters? hn he).adds h
  have hle : n.lineStart ≤ e.span.start :=
    Nat.le_trans (lineStart_le hn) (hx.start_le hn)
  obtain ⟨a, b, c, ht, hsa, hsb, hab⟩ := Edit.exists_apply_pair hadd hadds hle
  rw [ha]
  refine ⟨block, e, a, b, c, rfl, hf, hx, ht, hsa, hsb, hab, ?_, bare_lineStart hn⟩
  simpa using ⟨hadd, hadds⟩

end Procedure

/-- The line of a procedure may start before its object: then the old header is kept outside of the
object, and the new text has a syntax error. -/
theorem addOverload_outside :
    let text : Text := "codeunit 1 A \x7b procedure P() begin end; \x7d"
    let es : List Edit := [Edit.insert 0 "procedure P()\nbegin\n    P(0);\nend;\n\n",
      Edit.insert 27 "Qty: Integer"]
    (parse text).ok ∧
      (∃ n ∈ (parse text).nodes, n.kind = NodeKind.methodDeclaration ∧ n.object?.isSome ∧
        n.addOverload [Variable.plain "Qty" "Integer"] false none = es) ∧
      ∃ t, Edit.apply es text = .ok t ∧ (parse t).ok = false := by
  intro text es
  have hn : (parse text).ok ∧ ∃ n ∈ (parse text).nodes, n.kind = NodeKind.methodDeclaration ∧
      n.object?.isSome ∧ n.addOverload [Variable.plain "Qty" "Integer"] false none = es := by
    decide +kernel
  have ha : Edit.apply es text = .ok (Edit.rewritten es 0 text) :=
    Edit.apply_apart (by decide) (by decide) (by decide)
  exact ⟨hn.1, hn.2, _, ha, by decide +kernel⟩

end Node

end AlRefactor
