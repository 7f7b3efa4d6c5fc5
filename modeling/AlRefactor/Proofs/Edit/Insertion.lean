import AlRefactor.Edit.EventCall
import AlRefactor.Edit.Signature
import AlRefactor.Proofs.Declaration.Placement
import AlRefactor.Proofs.Edit.Removal

/-!
# Insertions go between tokens

Whatever is added to a procedure is inserted before or behind a node, or at the start of the line of
one. Where nothing is wrong with a text no token reaches across such a place, so all that is added at
once can be carried out.
-/

namespace AlRefactor

open SyntaxTree

variable {text : Text} {n m : Node} {e : Edit}

/-- The edit adds something between two tokens and removes nothing. -/
def Edit.Adds (text : Text) (e : Edit) : Prop := e.span.start = e.span.stop ∧ text.Seam e.span.start

namespace Edit

theorem adds_insert {p : Nat} (h : text.Seam p) (t : Text) : (insert p t).Adds text := ⟨rfl, h⟩

/-- What adds only can be carried out, and leaves every token whole. -/
theorem apply_adds {es : List Edit} (h : ∀ e ∈ es, e.Adds text) :
    apply es text = .ok (rewritten es 0 text) := by
  refine apply_seams (fun e he => ?_) (List.pairwise_of_forall_mem_list fun e he f hf => ?_)
  · obtain ⟨hle, hs⟩ := h e he
    exact ⟨Nat.le_of_eq hle, hs, hle ▸ hs⟩
  · -- Empty ranges are apart in whatever order they stand.
    have he := (h e he).1
    have hf := (h f hf).1
    rcases Nat.le_total e.span.stop f.span.start with hle | hle
    · exact .of_le (Nat.le_of_eq he) (Nat.le_of_eq hf) hle
    · exact (Apart.of_le (Nat.le_of_eq hf) (Nat.le_of_eq he) (by omega)).symm

end Edit

/-! ## Places beside a node -/

namespace Node

/-- Where a node starts or, if it starts its line, where the line does. -/
def Lead (m : Node) (p : Nat) : Prop := p = m.start ∨ m.startsLine ∧ p = m.lineStart

/-- Before a node, or behind it with or without the layout that belongs to it. -/
inductive Place (m : Node) : Nat → Prop where
  | lead {p} : m.Lead p → Place m p
  | stop : Place m m.stop
  | full : Place m m.full.stop

theorem Place.start : m.Place m.start := .lead (.inl rfl)

theorem Place.line (h : m.startsLine) : m.Place m.lineStart := .lead (.inr ⟨h, rfl⟩)

theorem id_ne_zero (hn : n ∈ (parse text).nodes) (hm : m ∈ n.children) : m.id ≠ 0 :=
  Nat.ne_of_gt (Nat.zero_lt_of_lt (parent_of_mem_children hn hm).1)

theorem id_ne_zero_of_isMethod (hn : n ∈ (parse text).nodes) (hk : n.kind.isMethod) : n.id ≠ 0 := by
  intro hi
  rw [kind_root hn hi] at hk
  cases hk

end Node

namespace Edit

/-- The edit inserts before or behind a node, or at the start of the line of one. -/
def Beside (text : Text) (e : Edit) : Prop :=
  e.span.start = e.span.stop ∧ ∃ m ∈ (parse text).nodes, m.id ≠ 0 ∧
    (m.Place e.span.start ∨ e.span.start = m.lineStart)

theorem beside_insert {p : Nat} (hn : n ∈ (parse text).nodes) (hm : m ∈ n.children)
    (hp : m.Place p) (t : Text) : (insert p t).Beside text :=
  ⟨rfl, m, mem_nodes_of_child hn hm, Node.id_ne_zero hn hm, .inl hp⟩

/-- What holds of the ends of all nodes and of the starts of their lines holds of the place of an
insertion. -/
theorem Beside.all_places {P : Nat → Prop} (he : e.Beside text)
    (hP : ∀ m ∈ (parse text).nodes, m.id ≠ 0 → m.span.Ends P ∧ P m.full.stop ∧ P m.lineStart) :
    P e.span.start := by
  obtain ⟨_, m, hm, hi, hp⟩ := he
  obtain ⟨hs, hf, hl⟩ := hP m hm hi
  generalize e.span.start = p at hp
  rcases hp with hp | rfl
  · cases hp with
    | lead hp =>
        rcases hp with rfl | ⟨_, rfl⟩
        · exact hs.1
        · exact hl
    | stop => exact hs.2
    | full => exact hf
  · exact hl

/-- Whatever is wrong with a text, an insertion beside a node stays in it and splits no line break. -/
theorem Beside.hasAddress (he : e.Beside text) : text.HasAddress e.span := by
  have hb := he.all_places (P := text.Addressable) fun m hm _ => by
    obtain ⟨hs, _, hf⟩ := addressable hm
    refine ⟨hs, hf, ?_⟩
    rw [Node.lineStart, tree_text hm]
    exact hs.1.lineStart
  exact ⟨Nat.le_of_eq he.1, hb, he.1 ▸ hb⟩

theorem Beside.adds (he : e.Beside text) (h : (parse text).ok) : e.Adds text :=
  ⟨he.1, he.all_places fun _ hm hi => ⟨(seams hm).1, (seams hm).2.2, Node.seam_lineStart h hm hi⟩⟩

end Edit

namespace Node

/-- Statements at the end of a body go before an `exit` that ends it, or before its `end`. -/
theorem of_bottomPlace? {indent : Text} (h : n.bottomPlace? = some (m, indent)) :
    m ∈ n.children ∧ indent.IsLayout ∧
      (n.childNodes.getLast? = some m ∧ m.kind = NodeKind.exitStatement ∨
        m.kind = TokenKind.kwEnd) := by
  rw [bottomPlace?] at h
  split at h
  · rename_i x hx
    cases h
    obtain ⟨hl, hk⟩ := Option.filter_eq_some_iff.mp hx
    exact ⟨mem_of_childNodes (List.mem_of_getLast? hl), isLayout_lineIndent _,
      .inl ⟨hl, by simpa [Node.is] using hk⟩⟩
  · obtain ⟨b, hb, hm⟩ := Option.map_eq_some_iff.mp h
    cases hm
    exact ⟨(mem_of_lastChild? hb).1,
      (isLayout_lineIndent _).append (Text.isLayout_indentUnit _),
      .inr (mem_of_lastChild? hb).2⟩

theorem writes_insertStatements? {lines : List Text} {place : BodyEnd}
    (he : n.insertStatements? lines place = some e) : e.text.Writes lines := by
  have hn := Text.isLayout_newline n.tree.text
  cases place with
  | top =>
      obtain ⟨b, _, rfl⟩ := Option.map_eq_some_iff.mp he
      have hi := b.isLayout_lineIndent.append (Text.isLayout_indentUnit b.lineIndent)
      have hw := Text.writes_flatMap lines (hn.append hi) Text.isLayout_nil Text.isLayout_nil
      simpa only [List.append_nil, Edit.insert] using hw
  | bottom =>
      obtain ⟨⟨m, indent⟩, hm, rfl⟩ := Option.map_eq_some_iff.mp he
      have hi := (of_bottomPlace? hm).2.1
      dsimp only
      split
      · have hw := Text.writes_flatMap lines hi hn Text.isLayout_nil
        simpa only [List.append_nil, Edit.insert] using hw
      · have hr := hn.append m.isLayout_lineIndent
        have hw := Text.writes_flatMap lines (hn.append hi) Text.isLayout_nil hr
        simpa only [List.append_nil, ← List.append_assoc, Edit.insert] using hw

variable (hn : n ∈ (parse text).nodes)

include hn

/-! ## Signatures -/

theorem beside_extendParameters? {missing : List Variable}
    (he : n.extendParameters? missing = some e) : e.Beside text := by
  rw [extendParameters?] at he
  split at he
  · cases he
  obtain ⟨l, hl, he⟩ := Option.bind_eq_some_iff.mp he
  have hln := mem_nodes_of_child hn (mem_of_child? hl).1
  dsimp only at he
  split at he
  · cases he
    exact Edit.beside_insert hln (mem_of_lastChild? ‹_›).1 .stop _
  · obtain ⟨b, hb, rfl⟩ := Option.map_eq_some_iff.mp he
    exact Edit.beside_insert hln (mem_of_child? hb).1 .stop _

theorem beside_addOverload {missing : List Variable} {obsolete : Bool} {version : Option Text}
    (hi : n.id ≠ 0) : ∀ e ∈ n.addOverload missing obsolete version, e.Beside text := by
  rw [addOverload]
  split
  · intro e he
    rcases List.mem_pair.mp he with rfl | rfl
    · exact ⟨rfl, n, hn, hi, .inr rfl⟩
    · exact beside_extendParameters? hn ‹_›
  · nofun

theorem beside_nameReturnValue? {name : Text} (he : n.nameReturnValue? name = some e) :
    e.Beside text := by
  obtain ⟨r, hr, he⟩ := Option.bind_eq_some_iff.mp he
  have hrn := (mem_of_child? hr).1
  split at he
  · cases he
  · cases he
    cases hc : r.child? TokenKind.colon with
    | none => exact Edit.beside_insert hn hrn .start _
    | some c => exact Edit.beside_insert (mem_nodes_of_child hn hrn) (mem_of_child? hc).1 .start _

/-! ## Bodies -/

theorem beside_raiseEvent? {publisher : Text} {arguments : List Text} {handled : Bool}
    {place : BodyEnd} (he : n.raiseEvent? publisher arguments handled place = some e) :
    e.Beside text := by
  rw [raiseEvent?] at he
  split at he
  · cases place with
    | top =>
        obtain ⟨b, hb, rfl⟩ := Option.map_eq_some_iff.mp he
        exact Edit.beside_insert hn (mem_of_child? hb).1 .stop _
    | bottom =>
        obtain ⟨⟨m, indent⟩, hm, rfl⟩ := Option.map_eq_some_iff.mp he
        have hmn := (of_bottomPlace? hm).1
        dsimp only
        split
        · exact Edit.beside_insert hn hmn (.line ‹_›) _
        · exact Edit.beside_insert hn hmn .start _
  · cases he

/-! ## Sections of variables -/

omit hn in
/-- A variable is added to a section beside one of its entries, or behind the word that opens it. -/
theorem place_addToSection (v : Variable) : ∃ m, (m = n ∨ m ∈ n.children) ∧
    (n.addToSection v).span.start = (n.addToSection v).span.stop ∧
    m.Place (n.addToSection v).span.start := by
  have hc : ∀ {m}, m ∈ n.sectionEntries → m ∈ n.children := fun hm =>
    mem_of_childNodes (List.mem_filter.mp hm).1
  rw [addToSection]
  dsimp only
  split
  · rename_i m hm
    have hmn : m ∈ n.children := by
      rw [entryBefore?] at hm
      rcases Option.or_eq_some_iff.mp hm with hm | ⟨_, hm⟩
      all_goals exact hc (List.mem_reverse.mp (List.mem_of_find?_eq_some hm))
    refine ⟨m, .inr hmn, ?_⟩
    rw [insertLineBehind]
    split
    · exact ⟨rfl, .full⟩
    · exact ⟨rfl, .stop⟩
  · split
    · rename_i m hm
      refine ⟨m, .inr (hc (List.mem_of_head? hm)), ?_⟩
      split
      · exact ⟨rfl, .line ‹_›⟩
      · exact ⟨rfl, .start⟩
    · cases hw : n.child? TokenKind.kwVar with
      | none => exact ⟨n, .inl rfl, rfl, .stop⟩
      | some w => exact ⟨w, .inr (mem_of_child? hw).1, rfl, .stop⟩

/-- A new section goes before the body of a procedure, before a procedure of an object or before the
end of an object. -/
theorem of_sectionPlace? {place : Nat} {indent : Text} (hp : n.sectionPlace? = some (place, indent)) :
    ∃ a ∈ (parse text).nodes, ∃ m ∈ a.children, place = m.start ∧
      (n.kind.isMethod = false → a = n ∧ (m.kind.isMethod ∨ m.kind = TokenKind.rBrace)) := by
  rw [sectionPlace?] at hp
  split at hp
  · rename_i hk
    obtain ⟨w, hw, hp⟩ := Option.map_eq_some_iff.mp hp
    obtain ⟨b, hb, hw⟩ := Option.bind_eq_some_iff.mp hw
    cases hp
    exact ⟨b, mem_nodes_of_child hn (mem_of_child? hb).1, w, (mem_of_child? hw).1, rfl,
      fun hf => absurd hk (by simp [hf])⟩
  · split at hp
    · rename_i m hm
      cases hp
      have hk := List.find?_some hm
      rw [isAny_methods] at hk
      exact ⟨n, hn, m, List.mem_of_find?_eq_some hm, rfl, fun _ => ⟨rfl, .inl hk⟩⟩
    · obtain ⟨b, hb, hp⟩ := Option.map_eq_some_iff.mp hp
      cases hp
      obtain ⟨hbn, hbk⟩ := mem_of_lastChild? hb
      exact ⟨n, hn, b, hbn, rfl, fun _ => ⟨rfl, .inr hbk⟩⟩

theorem lead_insertSection? {v : Variable} (he : n.insertSection? v = some e) :
    ∃ a ∈ (parse text).nodes, ∃ m ∈ a.children, e.span.start = e.span.stop ∧ m.Lead e.span.start ∧
      (n.kind.isMethod = false → a = n ∧ (m.kind.isMethod ∨ m.kind = TokenKind.rBrace)) := by
  obtain ⟨⟨place, indent⟩, hp, rfl⟩ := Option.map_eq_some_iff.mp he
  obtain ⟨a, ha, m, hm, rfl, hk⟩ := of_sectionPlace? hn hp
  have ht : n.tree.text = m.tree.text := by
    rw [mem_nodes.mp hn, mem_nodes.mp (mem_nodes_of_child ha hm)]
  dsimp only
  split
  · rename_i hl
    rw [ht] at hl ⊢
    exact ⟨a, ha, m, hm, rfl, .inr ⟨hl, rfl⟩, hk⟩
  · exact ⟨a, ha, m, hm, rfl, .inl rfl, hk⟩

omit hn in
/-- A variable is declared in the section of its scope, or in a new one. -/
theorem declare?_eq (n : Node) (v : Variable) :
    n.declare? v =
      if n.kind.isMethod then
        (n.child? NodeKind.varSection).elim (n.insertSection? v) fun s => some (s.addToSection v)
      else if n.kind.isObject then
        (n.child? NodeKind.globalVarSection).elim (n.insertSection? v) fun s => some (s.addToSection v)
      else none := by
  unfold declare?
  dsimp only
  split
  · cases n.child? NodeKind.varSection <;> rfl
  · split
    · cases n.child? NodeKind.globalVarSection <;> rfl
    · rfl

omit hn in
/-- A variable goes into the first section that is there, otherwise into a new one. -/
theorem of_declare? {v : Variable} (he : n.declare? v = some e) :
    ∃ k : NodeKind, k.isVarSection ∧ (n.kind.isMethod = false → k = .globalVarSection) ∧
      ((∃ s, n.child? k = some s ∧ e = s.addToSection v) ∨ n.insertSection? v = some e) := by
  have hk : ∀ k : NodeKind,
      (n.child? k).elim (n.insertSection? v) (fun s => some (s.addToSection v)) = some e →
        (∃ s, n.child? k = some s ∧ e = s.addToSection v) ∨ n.insertSection? v = some e := by
    intro k he
    cases hc : n.child? k with
    | none => exact .inr (by rwa [hc] at he)
    | some s =>
        rw [hc] at he
        exact .inl ⟨s, rfl, (Option.some.inj he).symm⟩
  rw [declare?_eq] at he
  split at he
  · rename_i hm
    exact ⟨.varSection, rfl, fun hf => absurd hm (by simp [hf]), hk _ he⟩
  · split at he
    · exact ⟨.globalVarSection, rfl, fun _ => rfl, hk _ he⟩
    · cases he

theorem beside_declare? {v : Variable} (he : n.declare? v = some e) : e.Beside text := by
  obtain ⟨k, _, _, ⟨s, hs, rfl⟩ | he⟩ := of_declare? he
  · obtain ⟨hsn, _⟩ := mem_of_child? hs
    have hsm := mem_nodes_of_child hn hsn
    obtain ⟨m, hm, hle, hp⟩ := place_addToSection (n := s) v
    rcases hm with rfl | hm
    · exact ⟨hle, m, hsm, id_ne_zero hn hsn, .inl hp⟩
    · exact ⟨hle, m, mem_nodes_of_child hsm hm, id_ne_zero hsm hm, .inl hp⟩
  · obtain ⟨a, ha, m, hm, hle, hp, _⟩ := lead_insertSection? hn he
    exact ⟨hle, m, mem_nodes_of_child ha hm, id_ne_zero ha hm, .inl (.lead hp)⟩

end Node

/-! ## Objects -/

/-- A procedure is inserted beside the current one or beside a child of the object. -/
theorem Placement.beside_insert? {p : Placement} {o : Node} {current : Option Node} {name : Text}
    {access : Access} {lines : List Text} (ho : o ∈ (parse text).nodes)
    (hc : ∀ m ∈ current, m ∈ (parse text).nodes ∧ m.id ≠ 0)
    (he : p.insert? o current name access lines = some e) : e.Beside text := by
  rw [insert?] at he
  split at he
  · obtain ⟨a, ha, rfl⟩ := Option.map_eq_some_iff.mp he
    have hn := mem_of_anchor? ha
    cases a with
    | behind m =>
        rcases hn with hm | hm
        · exact ⟨rfl, m, (hc m hm).1, (hc m hm).2, .inl .full⟩
        · exact Edit.beside_insert ho hm .full _
    | before m => exact ⟨rfl, m, mem_nodes_of_child ho hn.2, Node.id_ne_zero ho hn.2, .inr rfl⟩
    | closing b =>
        dsimp only
        split
        · exact Edit.beside_insert ho hn.1 (.line ‹_›) _
        · exact Edit.beside_insert ho hn.1 .start _
  · cases he

end AlRefactor
