import AlRefactor.Declaration.Lookup
import AlRefactor.Proofs.Declaration.Brackets
import AlRefactor.Proofs.Declaration.Names
import AlRefactor.Proofs.Syntax.Collecting
import AlRefactor.Proofs.Syntax.Pieces
import AlRefactor.Proofs.Text.Trimming
import Mathlib.Data.List.Sort

/-!
# The fields of a table

The header of a field is cut apart at the semicolons in its text, whatever they belong to, and what is cut
out is trimmed. So name and type of a field are read as its tokens have them where there is no semicolon in
the number, the name and the layout around them, and where nothing but white space stands beside name and
type. Fields come in the order of the documents and of their sources.
-/

namespace AlRefactor

open Lexeme SyntaxTree

/-! ## Headers as texts -/

namespace Trees

open Text

variable {g g' k k' t u v w x y : Text}

theorem fieldHeader?_eq_some : fieldHeader? t = some (x, y) ↔
    ∃ u v w : Text, t = '(' :: (u ++ ';' :: (v ++ ';' :: w)) ++ [')'] ∧ ';' ∉ u ∧ ';' ∉ v ∧
      v.trim = x ∧ w.trim = y := by
  rw [fieldHeader?]
  simp only [Option.bind_eq_bind, Option.bind_eq_some_iff, Prod.exists, cutAt?_eq_some,
    dropStart?_eq_some, dropEnd?_eq_some, Option.some.injEq, Prod.mk.injEq]
  constructor
  · rintro ⟨_, ⟨_, rfl, rfl⟩, u, _, ⟨rfl, hu⟩, v, w, ⟨rfl, hv⟩, hx, hy⟩
    exact ⟨u, v, w, by simp, hu, hv, hx, hy⟩
  · rintro ⟨u, v, w, rfl, hu, hv, hx, hy⟩
    exact ⟨_, ⟨_, by rfl, rfl⟩, u, _, ⟨rfl, hu⟩, v, w, ⟨rfl, hv⟩, hx, hy⟩

theorem fieldHeader?_isSome : (fieldHeader? t).isSome ↔
    ∃ u : Text, t = '(' :: u ++ [')'] ∧ 2 ≤ u.count ';' := by
  simp only [Option.isSome_iff_exists, Prod.exists, fieldHeader?_eq_some]
  constructor
  · rintro ⟨x, y, u, v, w, rfl, -⟩
    refine ⟨_, rfl, ?_⟩
    simp only [List.count_append, List.count_cons_self]
    omega
  · rintro ⟨t, rfl, ht⟩
    obtain ⟨u, r, rfl, hu⟩ :=
      List.eq_append_cons_of_mem (List.count_pos_iff.mp (by omega : 0 < t.count ';'))
    rw [List.count_append, List.count_cons_self, List.count_eq_zero.mpr hu] at ht
    obtain ⟨v, w, rfl, hv⟩ :=
      List.eq_append_cons_of_mem (List.count_pos_iff.mp (by omega : 0 < r.count ';'))
    exact ⟨_, _, u, v, w, rfl, hu, hv, rfl, rfl⟩

/-- Where a header is cut into its number, its name and its type, these are what is read if and only if
no other semicolon stands in front of the type and only white space stands around name and type. -/
theorem fieldHeader?_append :
    fieldHeader? ('(' :: (u ++ ';' :: ((g ++ (x ++ g')) ++ ';' :: (k ++ (y ++ k')))) ++ [')']) = some (x, y) ↔
      ';' ∉ u ++ (g ++ (x ++ g')) ∧ (g.isBlank ∧ g'.isBlank ∧ x.trim = x) ∧
        k.isBlank ∧ k'.isBlank ∧ y.trim = y := by
  rw [← trim_eq_iff, ← trim_eq_iff, List.mem_append, not_or, fieldHeader?_eq_some]
  constructor
  · rintro ⟨p, q, r, h, hp, hq, rfl, rfl⟩
    have h : u ++ ';' :: ((g ++ (q.trim ++ g')) ++ ';' :: (k ++ (r.trim ++ k'))) =
        p ++ ';' :: (q ++ ';' :: r) :=
      (List.cons.inj (List.append_cancel_right h)).2
    -- All semicolons but the first two belong to the type.
    have hc := congrArg (List.count ';') h
    have hr : r.trim.count ';' = r.count ';' := countP_trim (fun c hc => by
      simp only [beq_eq_false_iff_ne]
      rintro rfl
      cases hc) r
    simp only [List.count_append, List.count_cons_self, hr, List.count_eq_zero.mpr hp,
      List.count_eq_zero.mpr hq] at hc
    have hu : ';' ∉ u := List.count_eq_zero.mp (by omega)
    have hv : ';' ∉ g ++ (q.trim ++ g') := List.count_eq_zero.mp (by
      simp only [List.count_append]
      omega)
    obtain ⟨-, h⟩ := append_cons_inj h hu hp
    obtain ⟨hx, hy⟩ := append_cons_inj h hv hq
    exact ⟨⟨hu, hv⟩, by rw [hx], by rw [hy]⟩
  · rintro ⟨⟨hu, hv⟩, hx, hy⟩
    exact ⟨u, _, _, rfl, hu, hv, hx, hy⟩

end Trees

/-! ## Headers as tokens -/

/-- A list has no separator and is one part, or it is cut at its first separator. -/
theorem splitOnP_cases {α : Type} (p : α → Bool) (l : List α) :
    ((∀ a ∈ l, p a = false) ∧ l.splitOnP p = [l]) ∨
      ∃ u s r, l = u ++ s :: r ∧ p s ∧ (∀ a ∈ u, p a = false) ∧ l.splitOnP p = u :: r.splitOnP p := by
  have hl : l.takeWhile (!p ·) ++ l.dropWhile (!p ·) = l := List.takeWhile_append_dropWhile
  have hu : ∀ a ∈ l.takeWhile (!p ·), p a = false := fun a ha => by simpa using List.mem_takeWhile_imp ha
  cases hd : l.dropWhile (!p ·) with
  | nil =>
      rw [hd, List.append_nil] at hl
      rw [hl] at hu
      exact .inl ⟨hu, List.splitOnP_eq_singleton hu⟩
  | cons s r =>
      have hs : p s := by
        have hn := List.head?_dropWhile_not (!p ·) l
        rw [hd] at hn
        simpa using hn
      rw [hd] at hl
      refine .inr ⟨_, s, r, hl.symm, hs, hu, ?_⟩
      rw [← List.splitOnP_append_cons_of_forall_mem hu s hs, hl]

theorem of_splitOnP_cons {α : Type} {p : α → Bool} {l u v : List α} {vs : List (List α)}
    (h : l.splitOnP p = u :: v :: vs) :
    ∃ s r, l = u ++ s :: r ∧ p s ∧ (∀ a ∈ u, p a = false) ∧ r.splitOnP p = v :: vs := by
  obtain ⟨-, hl⟩ | ⟨u, s, r, rfl, hs, hu, hl⟩ := splitOnP_cases p l
  · cases hl.symm.trans h
  · obtain ⟨rfl, hr⟩ := List.cons.inj (hl.symm.trans h)
    exact ⟨s, r, rfl, hs, hu, hr⟩

theorem of_splitOnP_singleton {α : Type} {p : α → Bool} {l u : List α} (h : l.splitOnP p = [u]) :
    l = u ∧ ∀ a ∈ u, p a = false := by
  obtain ⟨hl, hs⟩ | ⟨_, _, r, -, -, -, hs⟩ := splitOnP_cases p l
  · obtain rfl := (List.cons.inj (hs.symm.trans h)).1
    exact ⟨rfl, hl⟩
  · exact absurd (List.cons.inj (hs.symm.trans h)).2 (List.splitOnP_ne_nil _ _)

namespace Node

/-- The header of a field: brackets around a number, a name and a type, with semicolons between these
three. The name is a single token. -/
structure FieldHeader (a : Node) where
  opening : Node
  number : List Node
  first : Node
  name : Node
  second : Node
  type : Node
  more : List Node
  closing : Node
  children_eq : a.children = opening :: (number ++ first :: name :: second :: type :: more) ++ [closing]
  separators : first.is TokenKind.semicolon ∧ second.is TokenKind.semicolon
  parts : ∀ c ∈ number ++ name :: type :: more, c.is TokenKind.semicolon = false
  closed : closing.is TokenKind.rParen

/-- Name and type of a field, as the tokens of its header have them. -/
def declaredField? (a : Node) : Option (Text × Text) :=
  if (a.children.getLast?.map (·.is TokenKind.rParen)).getD false then
    match a.children.tail.dropLast.splitOnP (·.is TokenKind.semicolon) with
    | [_, [name], type :: more] =>
      let last := (type :: more).getLast (List.cons_ne_nil _ _)
      some (name.text, a.tree.text.extract ⟨type.start, last.stop⟩)
    | _ => none
  else none

namespace FieldHeader

variable {a : Node} (p : a.FieldHeader)

/-- The last token of the type. -/
def last : Node := (p.type :: p.more).getLast (List.cons_ne_nil _ _)

def typeText : Text := a.tree.text.extract ⟨p.type.start, p.last.stop⟩

theorem declaredField?_eq : a.declaredField? = some (p.name.text, p.typeText) := by
  have hp := p.parts
  simp only [List.mem_append, List.mem_cons] at hp
  have hname : ∀ c ∈ [p.name], c.is TokenKind.semicolon = false := by simpa using hp p.name (by simp)
  have hs : a.children.tail.dropLast.splitOnP (·.is TokenKind.semicolon) =
      [p.number, [p.name], p.type :: p.more] := by
    have ht : ∀ c ∈ p.type :: p.more, c.is TokenKind.semicolon = false := fun c hc =>
      hp c (.inr (.inr (List.mem_cons.mp hc)))
    have h := List.splitOnP_append_cons_of_forall_mem hname p.second p.separators.2 (p.type :: p.more)
    rw [List.splitOnP_eq_singleton ht, List.singleton_append] at h
    rw [p.children_eq, List.cons_append, List.tail_cons, List.dropLast_concat,
      List.splitOnP_append_cons_of_forall_mem (fun c hc => hp c (.inl hc)) _ p.separators.1, h]
  have hl : a.children.getLast? = some p.closing := by rw [p.children_eq, List.getLast?_concat]
  rw [declaredField?, hl, Option.map_some, Option.getD_some, p.closed, if_pos rfl, hs]
  rfl

end FieldHeader

theorem exists_fieldHeader {a : Node} (h : a.declaredField?.isSome) : Nonempty a.FieldHeader := by
  rw [declaredField?] at h
  split at h
  · rename_i hl
    split at h
    · rename_i number name type more hs
      obtain ⟨l, closing, hc⟩ := (List.eq_nil_or_concat' a.children).resolve_left fun hn => by
        rw [hn] at hl
        cases hl
      rw [hc, List.getLast?_concat] at hl
      cases l with
      | nil =>
          rw [hc] at hs
          cases hs
      | cons opening l =>
          rw [hc, List.cons_append, List.tail_cons, List.dropLast_concat] at hs
          obtain ⟨first, r, rfl, hf, hu, hs⟩ := of_splitOnP_cons hs
          obtain ⟨second, w, rfl, hse, hv, hs⟩ := of_splitOnP_cons hs
          obtain ⟨rfl, hw⟩ := of_splitOnP_singleton hs
          refine ⟨opening, number, first, name, second, type, more, closing, by rw [hc]; rfl,
            ⟨hf, hse⟩, fun c hc => ?_, hl⟩
          rcases List.mem_append.mp hc with hc | hc
          · exact hu c hc
          · rcases List.mem_cons.mp hc with rfl | hc
            · exact hv c (List.mem_singleton_self c)
            · exact hw c hc
    · cases h
  · cases h

namespace FieldHeader

variable {a : Node} (p : a.FieldHeader)

/-- No semicolon but the two of the header stands in front of its type, and only white space stands around
the name and around the type. -/
structure Plain : Prop where
  number : ';' ∉ p.opening.between p.first
  name : ';' ∉ p.first.between p.second
  aroundName : (p.first.between p.name).isBlank ∧ (p.name.between p.second).isBlank
  aroundType : (p.second.between p.type).isBlank ∧ (p.last.between p.closing).isBlank
  trimmed : p.name.text.trim = p.name.text ∧ p.typeText.trim = p.typeText

end FieldHeader

/-- The text of a header reads as its tokens do: what is the header of a field is plain, and any other text
in round brackets has at most one semicolon in it. -/
structure PlainHeader (a : Node) : Prop where
  plain : ∀ p : a.FieldHeader, p.Plain
  otherwise : ¬ Nonempty a.FieldHeader → ∀ u : Text, a.text = '(' :: u ++ [')'] → u.count ';' < 2

end Node

namespace SyntaxTree

variable {text : Text} {n a : Node}

section Header

variable (h : (parse text).ok) (hn : a ∈ (parse text).nodes) (hk : a.kind = NodeKind.sectionArguments)
  (p : a.FieldHeader)

include hn

theorem fieldHeader_ordered : p.opening.stop ≤ p.first.start ∧ p.first.stop ≤ p.name.start ∧
    p.name.stop ≤ p.second.start ∧ p.second.stop ≤ p.type.start ∧
    (p.type = p.last ∨ p.type.stop ≤ p.last.start) ∧ p.last.stop ≤ p.closing.start := by
  have hs := (ranged hn).apart
  simp only [p.children_eq, List.cons_append, List.append_assoc, List.pairwise_cons, List.pairwise_append,
    List.mem_append, List.mem_cons, or_imp, forall_and, forall_eq] at hs
  obtain ⟨⟨-, h₁, -⟩, -, ⟨⟨h₂, -⟩, ⟨h₃, -⟩, ⟨h₄, -⟩, ⟨h₅, h₆, -⟩, -, -, h₇, -⟩, -⟩ := hs
  have hl : p.last ∈ p.type :: p.more := List.getLast_mem _
  refine ⟨h₁, h₂, h₃, h₄, (List.mem_cons.mp hl).imp Eq.symm (h₅ _), ?_⟩
  rcases List.mem_cons.mp hl with hl | hl
  · exact hl ▸ h₆
  · exact h₇ _ hl

include h hk

/-- Brackets and semicolons of a header are what they are called. -/
theorem text_marks : p.opening.text = ['('] ∧ p.first.text = [';'] ∧ p.second.text = [';'] ∧
    p.closing.text = [')'] := by
  have hm (c : Node) (hc : c ∈ a.children) : c ∈ (parse text).nodes := mem_nodes_of_child hn hc
  have ho : p.opening.kind = TokenKind.lParen := by
    obtain ⟨_, ⟨_, ⟨_, rfl, _, _, rfl⟩, _, _, rfl⟩, hks⟩ := kinds_of_kind h hn hk
    rw [p.children_eq] at hks
    exact (List.cons.inj hks).1
  refine ⟨text_of_mark (hm _ ?_) ho (by decide),
    text_of_mark (hm _ ?_) (beq_iff_eq.mp p.separators.1) (by decide),
    text_of_mark (hm _ ?_) (beq_iff_eq.mp p.separators.2) (by decide),
    text_of_mark (hm _ ?_) (beq_iff_eq.mp p.closed) (by decide)⟩ <;> simp [p.children_eq]

/-- The text of a header is that of its parts with what stands around them. -/
theorem text_fieldHeader :
    a.text = '(' :: (p.opening.between p.first ++ ';' ::
      ((p.first.between p.name ++ (p.name.text ++ p.name.between p.second)) ++ ';' ::
        (p.second.between p.type ++ (p.typeText ++ p.last.between p.closing)))) ++ [')'] ∧
      p.first.between p.second = p.first.between p.name ++ (p.name.text ++ p.name.between p.second) := by
  have hi : a.id ≠ 0 := fun hi => by cases hk.symm.trans (kind_root hn hi)
  obtain ⟨hot, hft, hst, hct⟩ := text_marks h hn hk p
  obtain ⟨h₁, h₂, h₃, h₄, h₅, h₆⟩ := fieldHeader_ordered hn p
  have hc := p.children_eq
  have ho : p.opening ∈ a.children := by simp [hc]
  have hf : p.first ∈ a.children := by simp [hc]
  have hx : p.name ∈ a.children := by simp [hc]
  have hs : p.second ∈ a.children := by simp [hc]
  have hl : p.last ∈ a.children := by
    have hl : p.last ∈ p.type :: p.more := List.getLast_mem _
    rw [hc]
    simp only [List.mem_append, List.mem_cons] at hl ⊢
    tauto
  have hcl : p.closing ∈ a.children := by simp [hc]
  have hclosed : text.extract ⟨p.last.stop, a.stop⟩ = p.last.between p.closing ++ [')'] := by
    have hcn := mem_nodes_of_child hn hcl
    rw [← Node.stop_of_last h hn hi hc, Node.between_eq (mem_nodes_of_child hn hl), ← hct,
      Node.text_eq_extract hcn]
    exact Text.extract_split (Node.hasRange_gap hn hl hcl h₆) (Node.hasRange_span hcn)
  refine ⟨?_, Node.between_around hn hf hx h₂ hs h₃⟩
  rw [Node.text_eq_extract hn, ← Node.start_of_head h hn hi hc,
    Node.extract_from (mem_nodes_of_child hn ho) (Node.hasRange_behind hn ho), hot,
    Node.extract_behind hn ho hf h₁, hft, Node.extract_behind hn hf hx h₂, Node.extract_behind hn hx hs h₃,
    hst, Node.extract_stretch hn hs (by simp [hc]) h₄ hl h₅, hclosed, Node.FieldHeader.typeText, tree_text hn]
  simp

/-- What is read from the text of the header of a field is what its tokens say if and only if the header is
plain. -/
theorem fieldHeader?_eq_some_iff : Trees.fieldHeader? a.text = some (p.name.text, p.typeText) ↔ p.Plain := by
  obtain ⟨ht, hb⟩ := text_fieldHeader h hn hk p
  rw [ht, Trees.fieldHeader?_append, List.mem_append, not_or, ← hb]
  constructor
  · rintro ⟨⟨hu, hv⟩, ⟨hg, hg', hx⟩, hk, hk', hy⟩
    exact ⟨hu, hv, ⟨hg, hg'⟩, ⟨hk, hk'⟩, hx, hy⟩
  · rintro ⟨hu, hv, ⟨hg, hg'⟩, ⟨hk, hk'⟩, hx, hy⟩
    exact ⟨⟨hu, hv⟩, ⟨hg, hg', hx⟩, hk, hk', hy⟩

omit p in
/-- What is read from the text of any header is what its tokens say if and only if its text reads as they
do. -/
theorem fieldHeader?_eq_declaredField?_iff : Trees.fieldHeader? a.text = a.declaredField? ↔ a.PlainHeader := by
  by_cases hp : Nonempty a.FieldHeader
  · have hd (p : a.FieldHeader) : Trees.fieldHeader? a.text = a.declaredField? ↔ p.Plain := by
      rw [p.declaredField?_eq, fieldHeader?_eq_some_iff h hn hk]
    refine ⟨fun he => ⟨fun p => (hd p).mp he, fun hn => absurd hp hn⟩, fun hpl => ?_⟩
    exact (hd hp.some).mpr (hpl.plain hp.some)
  · have hd : a.declaredField? = none := Option.not_isSome_iff_eq_none.mp (mt Node.exists_fieldHeader hp)
    rw [hd, ← Option.not_isSome_iff_eq_none, Trees.fieldHeader?_isSome]
    constructor
    · exact fun hu => ⟨fun p => absurd ⟨p⟩ hp, fun _ u ht => Nat.lt_of_not_le fun hc => hu ⟨u, ht, hc⟩⟩
    · rintro hpl ⟨u, ht, hc⟩
      exact absurd hc (Nat.not_le_of_lt (hpl.otherwise hp u ht))

end Header

end SyntaxTree

/-! ## Fields of a table -/

namespace Node

def isSectionNamed (n : Node) (name : Text) : Bool :=
  n.is NodeKind.sectionDeclaration && (n.name.map (·.sameName name)).getD false

/-- A section for a field, directly inside a section for the fields of a table or of an extension of it. -/
def isFieldOf (f : Node) (table : Text) : Bool :=
  f.isSectionNamed "field" && f.parent.any fun s =>
    s.isSectionNamed "fields" && s.parent.any (Trees.declaresFieldsOf · table)

end Node

namespace SyntaxTree

variable {text : Text} {n m o f : Node} {name table : Text}

theorem mem_sectionsNamed : m ∈ Trees.sectionsNamed n name ↔ m ∈ n.children ∧ m.isSectionNamed name := by
  simp [Trees.sectionsNamed, Node.childrenOf, Node.isSectionNamed, and_comm]

theorem sectionsNamed_sublist (n : Node) (name : Text) : (Trees.sectionsNamed n name).Sublist n.children :=
  List.filter_sublist.trans List.filter_sublist

theorem isObject_of_declaresFieldsOf (h : Trees.declaresFieldsOf o table) : o.kind.isObject := by
  rw [Trees.declaresFieldsOf] at h
  split at h
  · rename_i hk
    rw [hk]
    rfl
  · rename_i hk
    rw [hk]
    rfl
  · cases h

/-- The sections of the fields of the tables in a file, as they are looked for. -/
def tableFields (t : SyntaxTree) (table : Text) : List Node :=
  ((t.root.childNodes.filter (·.kind.isObject)).filter (Trees.declaresFieldsOf · table)).flatMap fun o =>
    (Trees.sectionsNamed o "fields").flatMap (Trees.sectionsNamed · "field")

/-- The sections that are found for the fields of a table are all there are, in the order of the source. -/
theorem tableFields_eq (h : (parse text).ok) (table : Text) :
    (parse text).tableFields table = (parse text).nodes.filter (·.isFieldOf table) := by
  have hr : (parse text).root ∈ (parse text).nodes := mem_nodes.mpr rfl
  have hc {n m : Node} (hn : n ∈ (parse text).nodes) (hm : m ∈ n.children) := mem_nodes_of_child hn hm
  have : Std.Antisymm fun a b : Node => a.id < b.id := ⟨fun _ _ h h' => absurd h' (Nat.lt_asymm h)⟩
  have : Std.Irrefl fun a b : Node => a.id < b.id := ⟨fun _ => Nat.lt_irrefl _⟩
  refine List.Pairwise.eq_of_mem_iff (r := fun a b : Node => a.id < b.id) ?_
    ((pairwise_nodes _).sublist List.filter_sublist) fun f => ?_
  · refine (pairwise_subtree _).sublist (flatMap_sublist_subtree hr ?_ fun o ho => ?_)
    · exact List.filter_sublist.trans (List.filter_sublist.trans List.filter_sublist)
    have ho := hc hr (Node.mem_of_childNodes (List.mem_filter.mp (List.mem_filter.mp ho).1).1)
    refine flatMap_sublist_subtree ho (sectionsNamed_sublist o _) fun s hs => ?_
    exact (sectionsNamed_sublist s _).trans (children_sublist_subtree (hc ho (mem_sectionsNamed.mp hs).1))
  · simp only [tableFields, List.mem_flatMap, List.mem_filter, mem_sectionsNamed, Node.isFieldOf,
      Bool.and_eq_true, Option.any_eq_true]
    constructor
    · rintro ⟨o, ⟨⟨ho, -⟩, hd⟩, s, ⟨hs, hsn⟩, hf, hfn⟩
      have ho := hc hr (Node.mem_of_childNodes ho)
      have hsm := hc ho hs
      exact ⟨hc hsm hf, hfn, s, (parent_of_mem_children hsm hf).2, hsn, o, (parent_of_mem_children ho hs).2, hd⟩
    · rintro ⟨hf, hfn, s, hs, hsn, o, ho, hd⟩
      obtain ⟨hsm, hfs⟩ := mem_children_of_parent hf hs
      obtain ⟨hom, hso⟩ := mem_children_of_parent hsm ho
      have hob := isObject_of_declaresFieldsOf hd
      refine ⟨o, ⟨⟨?_, hob⟩, hd⟩, s, ⟨hso, hsn⟩, hfs, hfn⟩
      refine List.mem_filter.mpr ⟨mem_children_root h hom hob, ?_⟩
      rw [Node.isToken]
      cases hk : o.kind with
      | token k => rw [hk] at hob; cases hob
      | node k => rfl

end SyntaxTree

namespace Trees

variable {ts : Trees} {table : Text}

/-- The sections of the fields of a table in all documents: those of the first document in the order of its
source, then those of the next one. -/
def fieldSections (ts : Trees) (table : Text) : List Node :=
  ts.flatMap fun (_, t) => t.nodes.filter (·.isFieldOf table)

/-- What is read from the text of the header of a section. -/
def readField? (f : Node) : Option (Text × Text) :=
  (f.child? NodeKind.sectionArguments).bind fun a => fieldHeader? a.text

/-- One more document in front. -/
theorem fieldsOfTable_cons (d : Nat) (t : SyntaxTree) (ts : Trees) (table : Text) :
    fieldsOfTable ((d, t) :: ts) table = (t.tableFields table).filterMap readField? ++ ts.fieldsOfTable table := by
  rw [fieldsOfTable, objects, List.flatMap_cons, List.filter_append, List.flatMap_append, List.filter_map,
    List.flatMap_map, SyntaxTree.tableFields, List.filterMap_flatMap]
  rfl

/-- The fields of a table are read from all sections of its fields, in the order of the documents and of their
sources. -/
theorem fieldsOfTable_sections (hs : ∀ p ∈ ts, ∃ text, p.2 = parse text ∧ (parse text).ok) :
    ts.fieldsOfTable table = (ts.fieldSections table).filterMap readField? := by
  induction ts with
  | nil => rfl
  | cons p ts ih =>
      obtain ⟨⟨text, hp, hok⟩, hts⟩ := List.forall_mem_cons.mp hs
      obtain ⟨d, t⟩ := p
      obtain rfl : t = parse text := hp
      have hf : fieldSections ((d, parse text) :: ts) table =
          (parse text).nodes.filter (·.isFieldOf table) ++ fieldSections ts table := rfl
      rw [fieldsOfTable_cons, ih hts, tableFields_eq hok, hf, List.filterMap_append]

/-- Where every header of a field section of a table reads as its tokens do, the fields of the table are those
that its sections declare, in the order of the documents and of their sources: name and type of each
section whose header has a number, a name and a type. -/
theorem fieldsOfTable_eq_declared (hs : ∀ p ∈ ts, ∃ text, p.2 = parse text ∧ (parse text).ok)
    (hp : ∀ f ∈ ts.fieldSections table, ∀ a ∈ f.child? NodeKind.sectionArguments, a.PlainHeader) :
    ts.fieldsOfTable table = (ts.fieldSections table).filterMap fun f =>
      (f.child? NodeKind.sectionArguments).bind Node.declaredField? := by
  rw [fieldsOfTable_sections hs]
  refine List.filterMap_congr fun f hf => Option.bind_congr fun a ha => ?_
  obtain ⟨p, hpt, hf'⟩ := List.mem_flatMap.mp hf
  obtain ⟨text, ht, hok⟩ := hs p hpt
  have hfn : f ∈ (parse text).nodes := ht ▸ (List.mem_filter.mp hf').1
  obtain ⟨hac, hak⟩ := Node.mem_of_child? ha
  exact (fieldHeader?_eq_declaredField?_iff hok (mem_nodes_of_child hfn hac) hak).mpr (hp f hf a ha)

/-- A semicolon in the quotes of a name cuts the header apart. -/
theorem fieldsOfTable_quoted :
    let text : Text := "table 1 T \x7b fields \x7b field(1; \"A;B\"; Code[20]) \x7b \x7d \x7d \x7d".toList
    let ts : Trees := [(0, parse text)]
    (parse text).ok ∧ ts.fieldsOfTable "T".toList = [("\"A".toList, "B\"; Code[20]".toList)] ∧
      (ts.fieldSections "T".toList).filterMap (fun f =>
        (f.child? NodeKind.sectionArguments).bind Node.declaredField?) =
        [("\"A;B\"".toList, "Code[20]".toList)] := by
  decide +kernel

end Trees

end AlRefactor
