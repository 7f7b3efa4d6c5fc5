import AlRefactor.Proofs.Declaration.Objects
import AlRefactor.Proofs.Edit.NewLines
import AlRefactor.Proofs.Syntax.Standing

/-!
# Where a variable goes in a section

A section of variables is a word and entries. A new variable goes behind one of the entries, before all of
them, or behind the word if there are none. Where the entries are ordered by their types, they stay so.
-/

namespace AlRefactor

open AlRefactor.Tree Lexeme SyntaxTree

/-- The variable goes at the start of a line, or behind a line break of its own. -/
def Edit.OnOwnLine (text : Text) (e : Edit) : Prop :=
  text.isLineStart e.span.start ∨ text.newline <+: e.text

/-- New text is inserted between some lexemes and others, on lines of its own. -/
structure Edit.Joins (text gap : Text) (e : Edit) (core : Text) (L M : List Lexeme) (before behind : Text) :
    Prop where
  cut : text.Cut L M e.span.start
  edit : e = Edit.insert e.span.start (before ++ (core ++ behind))
  joins : text.Joins gap L M before behind

namespace Pattern

/-- A section of variables is a word, perhaps another one in front of it, and entries. -/
theorem mem_section {k : NodeKind} (hk : k.isVarSection) {w : List Symbol}
    (h : w ∈ k.production.matches') : ∃ x y, w = x ++ .token .kwVar :: y ∧
      (∀ s ∈ x, s = .token .kwProtected) ∧
      ∀ s ∈ y, s = .node .variableDeclaration ∨ s = .node .variableListDeclaration := by
  have hlist {y : List Symbol} (hy : y ∈ variableList.matches') :
      ∀ s ∈ y, s = .node .variableDeclaration ∨ s = .node .variableListDeclaration := fun s hs => by
    simpa [variableList, symbols, nodes, oneOf] using mem_symbols hy s hs
  cases k <;> try cases hk
  · obtain ⟨u, ⟨x, hx, v, hv, rfl⟩, y, hy, rfl⟩ := h
    obtain rfl : v = [.token .kwVar] := hv
    refine ⟨x, y, by simp, fun s hs => ?_, hlist hy⟩
    simpa [optional, symbols, token] using mem_symbols hx s hs
  · obtain ⟨v, hv, y, hy, rfl⟩ := h
    obtain rfl : v = [.token .kwVar] := hv
    exact ⟨[], y, rfl, fun _ hn => (List.not_mem_nil hn).elim, hlist hy⟩

end Pattern

namespace Node

variable {text : Text} {n s : Node} {v : Variable} {k : Nat} {j : Kind} {parts : List Tree}

/-- The words of a section and its entries. -/
theorem exists_sectionParts (h : (parse text).ok) (hs : s ∈ (parse text).nodes) (hk : s.kind.isVarSection) :
    ∃ (ws : List Node) (b : Node) (es : List Node), s.children = ws ++ b :: es ∧
      (∀ w ∈ ws, w.kind = TokenKind.kwProtected) ∧ b.kind = TokenKind.kwVar ∧ s.childNodes = es ∧
      ∀ e ∈ es, e.kind = NodeKind.variableDeclaration ∨ e.kind = NodeKind.variableListDeclaration := by
  obtain ⟨k, hsk, hw⟩ := (token_or_rule h hs).resolve_left fun ht => by
    obtain ⟨k, hsk, -⟩ := ht
    rw [hsk] at hk
    cases hk
  obtain ⟨x, y, hx, hX, hY⟩ := Pattern.mem_section (by rwa [hsk] at hk) hw
  obtain ⟨ws, us, hch, rfl, hu⟩ := List.map_eq_append_iff.mp hx
  obtain ⟨b, es, rfl, hb, rfl⟩ := List.map_eq_cons_iff.mp hu
  have hX : ∀ w ∈ ws, w.kind = TokenKind.kwProtected := fun w hw => by
    rw [← SyntaxTree.kind_symbol, hX _ (List.mem_map_of_mem hw)]
    rfl
  have hb : b.kind = TokenKind.kwVar := by
    rw [← SyntaxTree.kind_symbol, hb]
    rfl
  have hY : ∀ e ∈ es, e.kind = NodeKind.variableDeclaration ∨ e.kind = NodeKind.variableListDeclaration :=
    fun e he => by
      rw [← SyntaxTree.kind_symbol]
      rcases hY _ (List.mem_map_of_mem he) with h | h <;> rw [h]
      · exact .inl rfl
      · exact .inr rfl
  refine ⟨ws, b, es, hch, hX, hb, ?_, hY⟩
  rw [childNodes, hch, List.filter_append,
    List.filter_eq_nil_iff.mpr fun w hw => by simp [isToken, hX w hw, Kind.isToken],
    List.nil_append, List.filter_cons_of_neg (by simp [isToken, hb, Kind.isToken])]
  refine List.filter_eq_self.mpr fun e he => ?_
  rcases hY e he with h | h <;> simp [isToken, h, Kind.isToken]

theorem sectionEntries_eq {es : List Node} (hc : s.childNodes = es)
    (he : ∀ e ∈ es, e.kind = NodeKind.variableDeclaration ∨ e.kind = NodeKind.variableListDeclaration) :
    s.sectionEntries = es := by
  rw [sectionEntries, hc]
  refine List.filter_eq_self.mpr fun e hm => ?_
  rcases he e hm with h | h <;> simp [isOneOf, isAny, h]

/-! ## The order of the entries -/

/-- A new variable between two runs of entries: where the entries are ordered by the ranks of their types,
they stay so. -/
def Suits (v : Variable) (xs ys : List Node) : Prop :=
  (xs ++ ys).Pairwise (fun a b => Text.typeRank a.typeOfEntry ≤ Text.typeRank b.typeOfEntry) →
    (∀ x ∈ xs, Text.typeRank x.typeOfEntry ≤ Text.typeRank v.type) ∧
      ∀ y ∈ ys, Text.typeRank v.type ≤ Text.typeRank y.typeOfEntry

theorem typeRank_congr {a b : Text} (h : (Text.typeWord a).sameLetters (Text.typeWord b)) :
    Text.typeRank a = Text.typeRank b := by
  rw [Text.typeRank, Text.typeRank, beq_iff_eq.mp h]

/-- Behind the entry that a new variable follows it is in order. -/
theorem suits_entryBefore? {e : Node} (h : s.entryBefore? v = some e) :
    ∃ xs ys, s.sectionEntries = xs ++ e :: ys ∧ Suits v (xs ++ [e]) ys := by
  rw [entryBefore?] at h
  generalize s.sectionEntries = es at h
  have hsplit {p : Node → Bool} (hp : es.reverse.find? p = some e) :
      p e ∧ ∃ xs ys, es = xs ++ e :: ys ∧ ∀ y ∈ ys, p y = false := by
    obtain ⟨hpe, as, bs, hrev, has⟩ := List.find?_eq_some_iff_append.mp hp
    refine ⟨hpe, bs.reverse, as.reverse, ?_, fun y hy => by simpa using has y (List.mem_reverse.mp hy)⟩
    rw [← List.reverse_reverse es, hrev]
    simp
  have hbefore {xs ys : List Node} {r : Nat} (he : Text.typeRank e.typeOfEntry ≤ r)
      (ho : ((xs ++ [e]) ++ ys).Pairwise fun a b => Text.typeRank a.typeOfEntry ≤ Text.typeRank b.typeOfEntry) :
      ∀ x ∈ xs ++ [e], Text.typeRank x.typeOfEntry ≤ r := fun x hx => by
    have ho := (List.pairwise_append.mp ho).1
    rcases List.mem_append.mp hx with hx | hx
    · exact Nat.le_trans ((List.pairwise_append.mp ho).2.2 x hx e (List.mem_singleton_self e)) he
    · rw [List.mem_singleton.mp hx]
      exact he
  rcases Option.or_eq_some_iff.mp h with h | ⟨-, h⟩
  · obtain ⟨he, xs, ys, rfl, -⟩ := hsplit h
    have hr := typeRank_congr he
    refine ⟨xs, ys, rfl, fun ho => ⟨hbefore (Nat.le_of_eq hr) ho, fun y hy => ?_⟩⟩
    exact (Nat.le_of_eq hr.symm).trans ((List.pairwise_append.mp ho).2.2 e (by simp) y hy)
  · obtain ⟨he, xs, ys, rfl, hy⟩ := hsplit h
    refine ⟨xs, ys, rfl, fun ho => ⟨hbefore (Nat.le_of_lt (by simpa using he)) ho, fun y hm => ?_⟩⟩
    simpa using hy y hm

/-- Where no entry is to be followed, all of them may come later. -/
theorem suits_nil (h : s.entryBefore? v = none) : Suits v [] s.sectionEntries := by
  rw [entryBefore?, Option.or_eq_none_iff] at h
  refine fun _ => ⟨fun _ hn => (List.not_mem_nil hn).elim, fun y hy => ?_⟩
  simpa using List.find?_eq_none.mp h.2 y (List.mem_reverse.mpr hy)

/-! ## The place in a section -/

/-- A section whose entries are those before a new variable and those behind it, and the trees that they
show. -/
structure SectionPlace (text : Text) (s : Node) (v : Variable) (k : Nat) (parts : List Tree)
    (ws xs ys : List Node) (wts ets fts : List Tree) : Prop where
  children : s.children = ws ++ (xs ++ ys)
  childNodes : s.childNodes = xs ++ ys
  parts : parts = wts ++ (ets ++ fts)
  words : Shows text k ws wts
  front : Shows text (k + (leavesOf wts).length) xs ets
  back : Shows text (k + (leavesOf wts).length + (leavesOf ets).length) ys fts
  tokens : ∀ w ∈ ws, w.kind.isToken
  kinds : ∀ e ∈ xs ++ ys, e.kind = NodeKind.variableDeclaration ∨ e.kind = NodeKind.variableListDeclaration
  suits : Suits v xs ys

theorem exists_sectionPlace {ws xs ys : List Node} (ho : Suits v xs ys) (hs : Shows text k [s] [.node j parts])
    (hch : s.children = ws ++ (xs ++ ys)) (hcn : s.childNodes = xs ++ ys) (hw : ∀ w ∈ ws, w.kind.isToken)
    (hk : ∀ e ∈ xs ++ ys, e.kind = NodeKind.variableDeclaration ∨ e.kind = NodeKind.variableListDeclaration) :
    ∃ wts ets fts, SectionPlace text s v k parts ws xs ys wts ets fts := by
  have hc : Shows text k s.children parts := hs.children
  rw [hch] at hc
  obtain ⟨wts, us, rfl, hws, hu⟩ := hc.split
  obtain ⟨ets, fts, rfl, hxs, hys⟩ := hu.split
  exact ⟨wts, ets, fts, hch, hcn, rfl, hws, hxs, hys, hw, hk, ho⟩

variable {L M : List Lexeme} {m : Node}

theorem isIndent_lineIndent (m : Node) : ∀ c ∈ m.lineIndent, Text.isIndent c :=
  fun _ hc => List.mem_takeWhile_imp hc

theorem isIndent_indentUnit (t : Text) : ∀ c ∈ t.indentUnit, Text.isIndent c := by
  rw [Text.indentUnit]
  split <;> exact List.all_eq_true.mp (by decide)

/-- A new line in front of a node that starts its line. -/
theorem joins_lineStart {i i' : Nat} {w : Text} (line : Text) (hm : m ∈ (parse text).nodes) (hs : m.Spans text i i')
    (hl : m.startsLine) (hw : ∀ c ∈ w, Text.isIndent c) :
    ∃ L M, (Edit.insert m.lineStart (w ++ line ++ text.newline)).Joins text [] line L M w (text.newline ++ []) ∧
      (solid L).length = i := by
  obtain ⟨L, M, hc, hk, hb⟩ := hs.cut_line hm hl
  exact ⟨L, M, ⟨hc, by simp [Edit.insert, Span.empty], .start hw hb⟩, hk⟩

/-- Where a line starts, a node starts its line. -/
theorem startsLine_of_isLineStart {i i' : Nat} (hm : m ∈ (parse text).nodes) (hs : m.Spans text i i')
    (hl : text.isLineStart m.start) : m.startsLine := by
  obtain ⟨as, cs, bs, hst, ha, -⟩ := hs.exists_stretch hm
  have hc : text.Cut as (cs ++ bs) m.start := ⟨hst.eq, ha.symm⟩
  rw [startsLine, tree_text hm, hc.startsLine (hc.isLineStart hl)]
  rfl

/-- A new line behind a node. -/
theorem joins_stop {i i' : Nat} {w : Text} (line : Text) (hm : m ∈ (parse text).nodes) (hs : m.Spans text i i')
    (hlt : i + i' < (solid (lex text)).length) (hw : ∀ c ∈ w, Text.isIndent c) :
    ∃ L M, (Edit.insert m.stop (text.newline ++ w ++ line)).Joins text [] line L M (text.newline ++ w) [] ∧
      (solid L).length = i + i' ∧ ¬ text.isLineStart m.stop := by
  obtain ⟨L, M, hc, hk, hcl⟩ := hs.cut_stop hm
  have hb := hc.unbroken hcl (hc.ne_nil (by rwa [hk]))
  refine ⟨L, M, ⟨hc, ?_, .stop hw hb⟩, hk, fun hl => ?_⟩
  · simp [Edit.insert, Span.empty]
  · obtain ⟨c, hcm, hcb⟩ := hb
    rw [hc.isLineStart hl c hcm] at hcb
    cases hcb

/-- A new line behind the layout of a node, or behind the node itself. -/
theorem joins_insertLineBehind {i i' : Nat} {w : Text} (line : Text) (hm : m ∈ (parse text).nodes)
    (hs : m.Spans text i i')
    (hlt : i + i' < (solid (lex text)).length) (hw : ∀ c ∈ w, Text.isIndent c) :
    ∃ L M before behind, (m.insertLineBehind (w ++ line)).Joins text [] line L M before behind ∧
      (solid L).length = i + i' := by
  have ht := tree_text hm
  rw [insertLineBehind]
  split
  · rename_i hl
    rw [ht, Bool.and_eq_true] at hl
    obtain ⟨L, M, hc, hk⟩ := hs.cut_full hm
    refine ⟨L, M, w, text.newline ++ [], ⟨hc, ?_, .start hw (hc.isLineStart hl.1)⟩, hk⟩
    simp [Edit.insert, Span.empty, ht]
  · obtain ⟨L, M, hj, hk, -⟩ := joins_stop line hm hs hlt hw
    rw [ht, ← List.append_assoc]
    exact ⟨L, M, _, _, hj, hk⟩

/-- A variable that goes onto a line of its own does not go in front of a token on its line. -/
theorem startsLine_of_onOwnLine {i i' : Nat} {line : Text} (hm : m ∈ (parse text).nodes) (hs : m.Spans text i i')
    (hc : Text.Closed line) (ho : (Edit.insert m.start (line ++ " ".toList)).OnOwnLine text) : m.startsLine := by
  rcases ho with ho | ⟨r, hr⟩
  · exact startsLine_of_isLineStart hm hs ho
  · obtain ⟨l, ms, hl, hls⟩ := hc.leads
    have hh := Text.head_of_leads (hc.append " ".toList) ⟨l, ms ++ _, by rw [hl]; rfl, hls⟩
    rw [show line ++ " ".toList = text.newline ++ r from hr.symm] at hh
    rcases text.newline_eq_or with h | h <;> rw [h] at hh <;> exact absurd (hh _ rfl).2 (by decide)

theorem length_leavesOf_concat (us : List Tree) (t : Tree) :
    (leavesOf (us ++ [t])).length = (leavesOf us).length + t.leaves.length := by
  rw [leavesOf_append, leavesOf, leavesOf, List.append_nil, List.length_append]

section

variable {b e first : Node} {ws xs ys es : List Node} {wts ets fts : List Tree}

/-- A new line behind an entry. -/
theorem SectionPlace.joins_behind (hp : SectionPlace text s v k parts ws (xs ++ [e]) ys wts ets fts)
    (hlt : k + (leavesOf parts).length < (solid (lex text)).length) :
    ∃ L M before behind, (e.insertLineBehind (e.lineIndent ++ v.sectionLine)).Joins text [] v.sectionLine L M
      before behind ∧ (solid L).length = k + (leavesOf wts).length + (leavesOf ets).length := by
  obtain ⟨us, vs, hus, -, hlast⟩ := hp.front.split
  obtain ⟨t, rfl⟩ := hlast.singleton
  have hlen := length_leavesOf_concat us t
  rw [hp.parts, leavesOf_append, leavesOf_append, List.length_append, List.length_append, hus, hlen] at hlt
  obtain ⟨L, M, before, behind, hj, hL⟩ := joins_insertLineBehind v.sectionLine hlast.mem hlast.spans (by omega)
    (isIndent_lineIndent e)
  exact ⟨L, M, before, behind, hj, by rw [hL, hus, hlen]; omega⟩

/-- A new line behind the word of a section without entries. -/
theorem SectionPlace.joins_word (hp : SectionPlace text s v k parts (ws ++ [b]) [] ys wts ets fts)
    (hlt : k + (leavesOf parts).length < (solid (lex text)).length) :
    ∃ L M, (Edit.insert b.stop (text.newline ++ b.lineIndent ++ b.lineIndent.indentUnit ++ v.sectionLine)).Joins
        text [] v.sectionLine L M (text.newline ++ b.lineIndent ++ b.lineIndent.indentUnit) [] ∧
      (solid L).length = k + (leavesOf wts).length + (leavesOf ets).length ∧ ¬ text.isLineStart b.stop := by
  obtain ⟨us, vs, hus, -, hlast⟩ := hp.words.split
  obtain ⟨t, rfl⟩ := hlast.singleton
  obtain rfl : ets = [] := by cases hp.front; rfl
  have hlen := length_leavesOf_concat us t
  rw [hp.parts, leavesOf_append, List.length_append, hus, hlen] at hlt
  have hw : ∀ c ∈ b.lineIndent ++ b.lineIndent.indentUnit, Text.isIndent c := fun c hc =>
    (List.mem_append.mp hc).elim (isIndent_lineIndent b c) (isIndent_indentUnit _ c)
  obtain ⟨L, M, hj, hL, hl⟩ := joins_stop v.sectionLine hlast.mem hlast.spans (by omega) hw
  rw [← List.append_assoc text.newline] at hj
  exact ⟨L, M, hj, by rw [hL, hus, hlen, leavesOf, List.length_nil]; omega, hl⟩

/-- A new line in front of the first entry, which starts its line. -/
theorem SectionPlace.joins_before (hp : SectionPlace text s v k parts ws [] (first :: es) wts ets fts)
    (hl : first.startsLine) :
    ∃ L M before behind, (Edit.insert first.lineStart (first.lineIndent ++ v.sectionLine ++ text.newline)).Joins
      text [] v.sectionLine L M before behind ∧
      (solid L).length = k + (leavesOf wts).length + (leavesOf ets).length := by
  have hback := hp.back
  obtain ⟨t, fts', rfl⟩ : ∃ t fts', fts = t :: fts' := by cases hback; exact ⟨_, _, rfl⟩
  have hfirst := hback.head
  obtain ⟨L, M, hj, hL⟩ := joins_lineStart v.sectionLine hfirst.mem hfirst.spans hl (isIndent_lineIndent first)
  exact ⟨L, M, _, _, hj, hL⟩

/-- Where the first entry does not start its line, a variable in front of it is not on a line of its own. -/
theorem SectionPlace.startsLine (hp : SectionPlace text s v k parts ws [] (first :: es) wts ets fts)
    (hv : v.Declarable)
    (ho : (if first.startsLine then Edit.insert first.lineStart (first.lineIndent ++ v.sectionLine ++ text.newline)
      else Edit.insert first.start (v.sectionLine ++ " ")).OnOwnLine text) : first.startsLine := by
  by_contra hl
  rw [if_neg hl] at ho
  have hback := hp.back
  obtain ⟨t, fts', rfl⟩ : ∃ t fts', fts = t :: fts' := by cases hback; exact ⟨_, _, rfl⟩
  exact hl (startsLine_of_onOwnLine hback.head.mem hback.head.spans (Text.closed_line hv) ho)

end

/-- Where a variable goes onto a line of its own in a section, it goes between two runs of entries. -/
theorem exists_addToSection (h : (parse text).ok) (hv : v.Declarable) (hs : Shows text k [s] [.node j parts])
    (hk : s.kind.isVarSection) (ho : (s.addToSection v).OnOwnLine text)
    (hlt : k + (leavesOf parts).length < (solid (lex text)).length) :
    ∃ ws xs ys wts ets fts L M before behind, SectionPlace text s v k parts ws xs ys wts ets fts ∧
      (s.addToSection v).Joins text [] v.sectionLine L M before behind ∧
      (solid L).length = k + (leavesOf wts).length + (leavesOf ets).length ∧
      (text.isLineStart (s.addToSection v).span.start → xs ++ ys ≠ []) := by
  obtain ⟨ws, b, es, hch, hX, hb, hcn, hE⟩ := exists_sectionParts h hs.mem hk
  have hes := sectionEntries_eq hcn hE
  have hW : ∀ w ∈ ws ++ [b], w.kind.isToken := fun w hw => by
    rcases List.mem_append.mp hw with hw | hw
    · rw [hX w hw]
      rfl
    · rw [List.mem_singleton.mp hw, hb]
      rfl
  have hch' : s.children = (ws ++ [b]) ++ es := by rw [hch, List.append_assoc, List.singleton_append]
  have ht := tree_text hs.mem
  rw [addToSection] at ho ⊢
  cases he : s.entryBefore? v with
  | some e =>
      obtain ⟨xs, ys, hxs, hsuit⟩ := suits_entryBefore? he
      obtain rfl : es = (xs ++ [e]) ++ ys := by rw [← hes, hxs, List.append_assoc, List.singleton_append]
      obtain ⟨wts, ets, fts, hp⟩ := exists_sectionPlace hsuit hs hch' hcn hW hE
      obtain ⟨L, M, before, behind, hj, hL⟩ := hp.joins_behind hlt
      exact ⟨_, _, _, wts, ets, fts, L, M, before, behind, hp, hj, hL, fun _ => by simp⟩
  | none =>
      have hsuit := suits_nil he
      rw [hes] at hsuit
      obtain ⟨wts, ets, fts, hp⟩ := exists_sectionPlace hsuit hs hch' hcn hW hE
      rw [he, hes] at ho
      rw [hes]
      cases es with
      | nil =>
          have hvar : s.child? TokenKind.kwVar = some b := by
            rw [child?, hch, List.find?_append, List.find?_eq_none.mpr fun w hw => by simp [is, hX w hw]]
            simp [is, hb]
          dsimp only [List.head?_nil]
          rw [hvar, Option.getD_some, ht]
          obtain ⟨L, M, hj, hL, hl⟩ := hp.joins_word hlt
          exact ⟨_, _, _, wts, ets, fts, L, M, _, _, hp, hj, hL, fun h => absurd h hl⟩
      | cons first es =>
          dsimp only [List.head?_cons] at ho ⊢
          rw [ht] at ho ⊢
          have hl := hp.startsLine hv ho
          rw [if_pos hl]
          obtain ⟨L, M, before, behind, hj, hL⟩ := hp.joins_before hl
          exact ⟨_, _, _, wts, ets, fts, L, M, before, behind, hp, hj, hL, fun _ => by simp⟩

end Node

end AlRefactor
