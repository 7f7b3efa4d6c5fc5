import AlRefactor.Proofs.Edit.Insertion

/-!
# What is written for a declaration

The line of a variable is written with nothing but layout around it, and behind the word that opens a
section if there was none.
-/

namespace AlRefactor.Node

open Text

variable {n : Node} {v : Variable} {e : Edit} {line : Text}

theorem writes_line (line : Text) {before behind : Text} (hb : before.IsLayout) (ha : behind.IsLayout) :
    Writes (before ++ (line ++ behind)) [line] :=
  .line hb (.layout ha)

theorem writes_insertLineBehind {indent : Text} (hi : indent.IsLayout) :
    (n.insertLineBehind (indent ++ line)).text.Writes [line] := by
  have hn := isLayout_newline n.tree.text
  rw [insertLineBehind]
  split
  · simpa [Edit.insert] using writes_line line hi hn
  · simpa [Edit.insert] using writes_line line (hn.append hi) isLayout_nil

theorem writes_addToSection (n : Node) (v : Variable) :
    (n.addToSection v).text.Writes [v.sectionLine] := by
  have hn := isLayout_newline n.tree.text
  rw [addToSection]
  dsimp only
  split
  · exact writes_insertLineBehind (isLayout_lineIndent _)
  · split
    · split
      · simpa [Edit.insert] using writes_line v.sectionLine (isLayout_lineIndent _) hn
      · exact writes_line v.sectionLine isLayout_nil (by simp [IsLayout, isIndent])
    · have hw (w : Node) : IsLayout (n.tree.text.newline ++ (w.lineIndent ++ w.lineIndent.indentUnit)) :=
        hn.append ((isLayout_lineIndent w).append (isLayout_indentUnit _))
      simpa [Edit.insert] using writes_line v.sectionLine (hw _) isLayout_nil

theorem isLayout_sectionPlace? {place : Nat} {indent : Text}
    (hp : n.sectionPlace? = some (place, indent)) : indent.IsLayout := by
  rw [sectionPlace?] at hp
  split at hp
  · obtain ⟨b, _, hb⟩ := Option.map_eq_some_iff.mp hp
    cases hb
    exact isLayout_lineIndent b
  · split at hp
    · cases hp
      exact isLayout_lineIndent _
    · obtain ⟨b, _, hb⟩ := Option.map_eq_some_iff.mp hp
      cases hb
      exact (isLayout_lineIndent b).append (isLayout_indentUnit _)

theorem writes_insertSection? (he : n.insertSection? v = some e) :
    e.text.Writes ["var", v.sectionLine] := by
  obtain ⟨⟨place, indent⟩, hp, rfl⟩ := Option.map_eq_some_iff.mp he
  have hi := isLayout_sectionPlace? hp
  have hn := isLayout_newline n.tree.text
  have hg (b : Bool) : IsLayout (if b then n.tree.text.newline else []) := by
    cases b
    · exact isLayout_nil
    · exact hn
  have hw {a c : Text} (ha : a.IsLayout) (hc : c.IsLayout) := Writes.line (l := "var".toList) (ha.append hi)
    (writes_line v.sectionLine (hn.append (hi.append (isLayout_indentUnit indent))) (hn.append hc))
  dsimp only
  split
  · have h := hw isLayout_nil (hg (n.kind.isObject && n.childNodes.any fun m => m.kind.isMethod && m.start == place))
    simpa only [Edit.insert, List.nil_append, List.append_assoc] using h
  · have h := hw hn ((hg (n.kind.isObject && n.childNodes.any fun m => m.kind.isMethod && m.start == place)).append hi)
    simpa only [Edit.insert, List.append_assoc] using h

/-- A variable is declared by its line, in a section that is there or in a new one. -/
theorem writes_declare? (he : n.declare? v = some e) :
    e.text.Writes [v.sectionLine] ∨ e.text.Writes ["var", v.sectionLine] := by
  obtain ⟨_, _, _, ⟨s, _, rfl⟩ | he⟩ := of_declare? he
  · exact .inl (writes_addToSection s v)
  · exact .inr (writes_insertSection? he)

end AlRefactor.Node
