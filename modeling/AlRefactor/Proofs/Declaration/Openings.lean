import AlRefactor.Proofs.Declaration.Sections
import AlRefactor.Proofs.Grammar.DeclaringObjects

/-!
# Where a new section of variables goes

A procedure without variables gets its section in front of its body, an object without any in front of its
first procedure or of its closing brace.
-/

namespace AlRefactor

open AlRefactor.Tree Lexeme SyntaxTree Grammar

namespace Kind

/-- The kind of the sections of variables in a scope. -/
def sectionKind (k : Kind) : NodeKind := if k.isMethod then .varSection else .globalVarSection

/-- What a new section of variables stands in front of in a scope. -/
def closesVariables (k : Kind) : Kind → Bool :=
  if k.isMethod then (· == NodeKind.block) else closesGlobals

end Kind

namespace Pattern

/-- The closing brace of an object stands at its end. -/
theorem mem_object {w : List Symbol} (h : w ∈ object.matches') :
    (∀ s ∈ w, s.kind ≠ .token .rBrace) ∨
      ∃ x, w = x ++ [.token .rBrace] ∧ ∀ s ∈ x, s.kind ≠ .token .rBrace := by
  obtain ⟨u, hu, v, hv, rfl⟩ := h
  have hu : ∀ s ∈ u, s.kind ≠ .token .rBrace := fun s hs => by
    simpa using all_symbols (p := fun s => s.kind != .token .rBrace) (by decide +kernel) hu s hs
  rcases hv with ⟨b, hb, y, ⟨z, hz, r, hr, rfl⟩, rfl⟩ | hv
  · obtain rfl : r = [.token .rBrace] := hr
    have hb : ∀ s ∈ b, s.kind ≠ .token .rBrace := fun s hs => by
      simpa using all_symbols (p := fun s => s.kind != .token .rBrace) rfl hb s hs
    have hz : ∀ s ∈ z, s.kind ≠ .token .rBrace := fun s hs => by
      simpa using all_symbols (p := fun s => s.kind != .token .rBrace) rfl hz s hs
    refine .inr ⟨u ++ (b ++ z), by simp, fun s hs => ?_⟩
    rcases List.mem_append.mp hs with hs | hs
    · exact hu s hs
    · exact (List.mem_append.mp hs).elim (hb s) (hz s)
  · obtain rfl : v = [] := hv
    exact .inl fun s hs => hu s (by simpa using hs)

/-- A block starts with its word. -/
theorem mem_block {w : List Symbol} (h : w ∈ NodeKind.block.production.matches') :
    ∃ x, w = .token .kwBegin :: x := by
  obtain ⟨_, ⟨_, ⟨u, hu, _, _, rfl⟩, _, _, rfl⟩, _, _, rfl⟩ := h
  obtain rfl : u = [.token .kwBegin] := hu
  exact ⟨_, rfl⟩

end Pattern

variable {text : Text} {k : Nat} {n m : Node} {ns xs zs : List Node} {t : Tree} {ts cs : List Tree}

namespace Shows

theorem forall_kind {P : Kind → Prop} (h : Shows text k ns ts) (hP : ∀ n ∈ ns, P n.kind) :
    ∀ t ∈ ts, P t.kind := fun t ht => by
  have hk : t.kind ∈ ns.map (·.kind) := h.kinds ▸ List.mem_map_of_mem ht
  obtain ⟨n, hn, hnt⟩ := List.mem_map.mp hk
  exact hnt ▸ hP n hn

/-- One of the nodes shows one of the trees. -/
theorem split_at (h : Shows text k (xs ++ m :: zs) ts) : ∃ hs r rs, ts = hs ++ r :: rs ∧
    Shows text k xs hs ∧ Shows text (k + (leavesOf hs).length) [m] [r] ∧
    Shows text (k + (leavesOf hs).length + r.leaves.length) zs rs := by
  obtain ⟨hs, vs, rfl, hx, hv⟩ := h.split
  cases hv with
  | cons hn hk hsp hc hz => exact ⟨hs, _, _, rfl, hx, .cons hn hk hsp hc .nil, hz⟩

end Shows

namespace Node

/-- A procedure or trigger with a body, or an object with a closing brace. -/
def IsScope (n : Node) : Prop :=
  n.kind.isMethod ∧ (∃ b, n.child? NodeKind.block = some b) ∨
    n.kind.isObject ∧ ∃ b, n.lastChild? TokenKind.rBrace = some b

/-- A node that takes tokens stands before the end of the text. -/
theorem Spans.lt {i : Nat} (h : n.Spans text k i) : k < (solid (lex text)).length := by
  obtain ⟨p, hp, -⟩ := h.start
  have hlt := (List.getElem?_eq_some_iff.mp hp).1
  rwa [← List.length_map (f := fun t : Token => t.toLexeme), Text.lexemes_significant] at hlt

/-- The parts of a scope in front of a node that a new section goes before, and those from it on. -/
structure Opens (text : Text) (n m : Node) (k : Nat) (cs hs : List Tree) (r : Tree) (rs : List Tree) :
    Prop where
  parts : cs = hs ++ r :: rs
  mem : m ∈ (parse text).nodes
  spans : ∃ i, m.Spans text (k + (leavesOf hs).length) i
  before : ∀ u ∈ hs, n.kind.closesVariables u.kind = false
  closes : n.kind.closesVariables r.kind = true

theorem exists_rBracePart (h : (parse text).ok) (hn : n ∈ (parse text).nodes) (hk : n.kind.isObject) {b : Node}
    (hb : n.lastChild? TokenKind.rBrace = some b) :
    ∃ xs, n.children = xs ++ [b] ∧ ∀ u ∈ xs, u.kind ≠ TokenKind.rBrace := by
  obtain ⟨hbn, hbk⟩ := mem_of_lastChild? hb
  obtain ⟨j, hj, hw⟩ := (token_or_rule h hn).resolve_left fun ht => by
    obtain ⟨i, hi, -⟩ := ht
    rw [hi] at hk
    cases hk
  rw [hj] at hk
  rw [NodeKind.production_of_isObject hk] at hw
  rcases Pattern.mem_object hw with hno | ⟨x, hx, hX⟩
  · exact absurd (by rw [SyntaxTree.kind_symbol]; exact hbk) (hno _ (List.mem_map_of_mem hbn))
  · obtain ⟨xs, us, hch, rfl, hu⟩ := List.map_eq_append_iff.mp hx
    obtain ⟨c, rfl, -⟩ := List.map_eq_singleton_iff.mp hu
    have hX : ∀ u ∈ xs, u.kind ≠ TokenKind.rBrace := fun u hu => by
      rw [← SyntaxTree.kind_symbol]
      exact hX _ (List.mem_map_of_mem hu)
    refine ⟨xs, ?_, hX⟩
    rw [hch] at hbn ⊢
    rcases List.mem_append.mp hbn with hm | hm
    · exact absurd hbk (hX b hm)
    · rw [List.mem_singleton.mp hm]

/-- A block starts with the word for it. -/
theorem exists_beginPart (h : (parse text).ok) {b : Node} (hb : b ∈ (parse text).nodes)
    (hk : b.kind = NodeKind.block) : ∃ w ws, b.children = w :: ws ∧ w.kind = TokenKind.kwBegin := by
  obtain ⟨i, hi, hw⟩ := (token_or_rule h hb).resolve_left fun ht => by
    obtain ⟨i, hi, -⟩ := ht
    rw [hk] at hi
    cases hi
  obtain rfl : i = .block := by
    rw [hk] at hi
    cases hi
    rfl
  obtain ⟨x, hx⟩ := Pattern.mem_block hw
  obtain ⟨w, ws, hc, hwk, -⟩ := List.map_eq_cons_iff.mp hx
  refine ⟨w, ws, hc, ?_⟩
  rw [← SyntaxTree.kind_symbol, hwk]
  rfl

/-- In a procedure a new section goes before the word that starts the body. -/
theorem exists_sectionPlace?_method (h : (parse text).ok) (hch : Shows text k n.children cs)
    (hm : n.kind.isMethod) {b : Node} (hb : n.child? NodeKind.block = some b) :
    ∃ m w hs r rs, n.sectionPlace? = some (m.start, w) ∧ (∀ c ∈ w, Text.isIndent c) ∧
      Opens text n m k cs hs r rs := by
  obtain ⟨hbk, xs, zs, hx, hxs⟩ := List.find?_eq_some_iff_append.mp hb
  have hbk : b.kind = NodeKind.block := by simpa [is] using hbk
  rw [hx] at hch
  obtain ⟨us, r, rs, rfl, hus, hr, -⟩ := hch.split_at
  obtain ⟨w, ws, hbc, hwk⟩ := exists_beginPart h hr.mem hbk
  have hwb : b.child? TokenKind.kwBegin = some w := by
    rw [child?, hbc]
    simp [is, hwk]
  have hwr := hr.children
  rw [hbc] at hwr
  obtain ⟨w', us', hwu⟩ : ∃ t ts, r.parts = t :: ts := by
    cases hp : r.parts with
    | nil => rw [hp] at hwr; cases hwr
    | cons t ts => exact ⟨t, ts, rfl⟩
  rw [hwu] at hwr
  have hplace : n.sectionPlace? = some (w.start, w.lineIndent) := by
    rw [sectionPlace?, if_pos hm, hb]
    simp [hwb]
  refine ⟨w, w.lineIndent, us, r, rs, hplace, isIndent_lineIndent w,
    ⟨rfl, hwr.head.mem, ⟨_, hwr.head.spans⟩, ?_, ?_⟩⟩
  · rw [Kind.closesVariables, if_pos hm]
    exact hus.forall_kind (P := fun k => (k == .node .block) = false) fun u hu => by simpa [is] using hxs u hu
  · rw [Kind.closesVariables, if_pos hm, ← hr.kind, hbk]
    rfl

/-- Before the first procedure and the closing brace nothing ends the globals. -/
theorem not_closesGlobals {xs : List Node} {us : List Tree} (hus : Shows text k xs us)
    (hb : ∀ u ∈ xs, u.kind ≠ TokenKind.rBrace) (hm : ∀ u ∈ xs, ¬ u.isAny (NodeKind.methods.map .node) = true) :
    ∀ u ∈ us, closesGlobals u.kind = false := by
  refine hus.forall_kind (P := fun k => closesGlobals k = false) fun u hu => ?_
  have hu' := hm u hu
  rw [isAny_methods] at hu'
  simp [closesGlobals, hb u hu, show u.kind.isMethod = false by simpa using hu']

/-- In an object a new section goes before the first procedure, or before the closing brace. -/
theorem exists_sectionPlace?_object (h : (parse text).ok) (hn : n ∈ (parse text).nodes)
    (hch : Shows text k n.children cs) (ho : n.kind.isObject) {b : Node}
    (hb : n.lastChild? TokenKind.rBrace = some b) :
    ∃ m w hs r rs, n.sectionPlace? = some (m.start, w) ∧ (∀ c ∈ w, Text.isIndent c) ∧
      Opens text n m k cs hs r rs := by
  obtain ⟨ys, hy, hys⟩ := exists_rBracePart h hn ho hb
  have hm : ¬ n.kind.isMethod = true := Bool.eq_false_iff.mp (Kind.isMethod_of_isObject ho)
  have hcloses : n.kind.closesVariables = closesGlobals := by rw [Kind.closesVariables, if_neg hm]
  have hbefore {xs : List Node} {us : List Tree} (hus : Shows text k xs us) (hxb : ∀ u ∈ xs, u ∈ ys)
      (hxm : ∀ u ∈ xs, ¬ u.isAny (NodeKind.methods.map .node) = true) :
      ∀ u ∈ us, n.kind.closesVariables u.kind = false := by
    rw [hcloses]
    exact not_closesGlobals hus (fun u hu => hys u (hxb u hu)) hxm
  rw [sectionPlace?, if_neg hm]
  cases hf : n.childAmong? (NodeKind.methods.map .node) with
  | some m =>
      obtain ⟨hmk, xs, zs, hx, hxs⟩ := List.find?_eq_some_iff_append.mp hf
      rw [isAny_methods] at hmk
      have hxb : xs <+: ys := by
        have hxy : xs <+: ys ++ [b] := hy ▸ hx ▸ List.prefix_append xs (m :: zs)
        refine (List.prefix_concat_iff.mp hxy).resolve_left fun he => ?_
        have hlen := congrArg List.length (hx.symm.trans hy)
        simp [he] at hlen
      rw [hx] at hch
      obtain ⟨us, r, rs, rfl, hus, hr, -⟩ := hch.split_at
      refine ⟨m, m.lineIndent, us, r, rs, rfl, isIndent_lineIndent m,
        ⟨rfl, hr.mem, ⟨_, hr.spans⟩, hbefore hus (fun u hu => hxb.subset hu) fun u hu => by simpa using hxs u hu, ?_⟩⟩
      rw [hcloses, ← hr.kind, closesGlobals, hmk]
      rfl
  | none =>
      have hno := List.find?_eq_none.mp hf
      rw [hy] at hch
      obtain ⟨us, r, rs, rfl, hus, hr, -⟩ := hch.split_at
      refine ⟨b, _, us, r, rs, by rw [hb]; rfl, fun c hc => (List.mem_append.mp hc).elim
        (isIndent_lineIndent b c) (isIndent_indentUnit _ c), ⟨rfl, hr.mem, ⟨_, hr.spans⟩,
        hbefore hus (fun u hu => hu) fun u hu => hno u (by rw [hy]; exact List.mem_append_left _ hu), ?_⟩⟩
      rw [hcloses, ← hr.kind, closesGlobals, (mem_of_lastChild? hb).2]
      rfl

/-- A new section of a scope has a place. -/
theorem exists_sectionPlace? (h : (parse text).ok) {j : Kind} (hs : Shows text k [n] [.node j cs])
    (hk : n.IsScope) : ∃ m w hs r rs, n.sectionPlace? = some (m.start, w) ∧ (∀ c ∈ w, Text.isIndent c) ∧
      Opens text n m k cs hs r rs := by
  have hch : Shows text k n.children cs := hs.children
  rcases hk with ⟨hm, b, hb⟩ | ⟨ho, b, hb⟩
  · exact exists_sectionPlace?_method h hch hm hb
  · exact exists_sectionPlace?_object h hs.mem hch ho hb

/-- A new section of a scope goes onto lines of its own. -/
theorem exists_insertSection (h : (parse text).ok) {j : Kind}
    (hs : Shows text k [n] [.node j cs]) (hk : n.IsScope) (v : Variable) :
    ∃ e gap w m hs r rs L M before behind, n.insertSection? v = some e ∧
      (gap = [] ∨ gap = text.newline ∧ n.kind.isMethod = false) ∧ (∀ c ∈ w, Text.isIndent c) ∧
      Opens text n m k cs hs r rs ∧
      e.Joins text gap (text.sectionText w v.sectionLine) L M before behind ∧
      (solid L).length = k + (leavesOf hs).length := by
  obtain ⟨m, w, us, r, rs, hp, hw, ho⟩ := exists_sectionPlace? h hs hk
  obtain ⟨i, hsp⟩ := ho.spans
  have ht := tree_text hs.mem
  have htm := tree_text ho.mem
  have hw' : ∀ c ∈ w ++ w.indentUnit, Text.isIndent c := fun c hc =>
    (List.mem_append.mp hc).elim (hw c) (isIndent_indentUnit w c)
  rw [insertSection?, hp, Option.map_some, ht]
  generalize hgap : (if (n.kind.isObject && n.childNodes.any fun c => c.kind.isMethod && c.start == m.start) = true
    then text.newline else []) = gap
  have hg : gap = [] ∨ gap = text.newline ∧ n.kind.isMethod = false := by
    rw [← hgap]
    split
    · rename_i hc
      rw [Bool.and_eq_true] at hc
      exact .inr ⟨rfl, Kind.isMethod_of_isObject hc.1⟩
    · exact .inl rfl
  dsimp only
  rw [hgap]
  by_cases hl : m.startsLine
  · obtain ⟨L, M, hc, hL, hb⟩ := hsp.cut_line ho.mem hl
    have hl' : (text.startsLine? m.start).getD false = true := by rwa [startsLine, htm] at hl
    have hls : text.lineStart m.start = m.lineStart := by rw [lineStart, htm]
    rw [if_pos hl', hls]
    refine ⟨_, gap, w ++ w.indentUnit, m, us, r, rs, L, M, w, text.newline ++ gap, rfl, hg, hw', ho,
      ⟨hc, ?_, .start hw hb⟩, hL⟩
    simp [Edit.insert, Span.empty, Text.sectionText]
  · obtain ⟨L, M, hc, hL, hb, hM⟩ := hsp.cut_inLine ho.mem hl
    have hl' : ¬ (text.startsLine? m.start).getD false = true := by rwa [startsLine, htm] at hl
    rw [if_neg hl']
    refine ⟨_, gap, w ++ w.indentUnit, m, us, r, rs, L, M, text.newline ++ w, text.newline ++ (gap ++ w), rfl, hg,
      hw', ho, ⟨hc, ?_, .within hw hw hb hM⟩, hL⟩
    simp [Edit.insert, Span.empty, Text.sectionText]

end Node

end AlRefactor
