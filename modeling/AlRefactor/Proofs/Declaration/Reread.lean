import AlRefactor.Proofs.Declaration.Openings
import AlRefactor.Proofs.Edit.Batch
import AlRefactor.Proofs.Syntax.Twins

/-!
# Reading a text again with one more variable

Where the line of a variable, or a section with this line, is put between the tokens of a text, the text
is read as before with one more variable in one of its scopes.
-/

namespace AlRefactor

open AlRefactor.Tree Lexeme SyntaxTree Grammar

/-! ## Braces -/

namespace Kind

/-- What the braces of an object or of a section hold and nothing else does. -/
def isHeld (k : Kind) : Bool := k.isMember || k == NodeKind.globalVarSection

end Kind

namespace Pattern

variable {w as bs : List Symbol} {s : Symbol}

theorem mem_memberList (h : w ∈ memberList.matches') : ∃ y, w = y ++ [.token .rBrace] := by
  obtain ⟨b, -, y, ⟨z, -, r, hr, rfl⟩, rfl⟩ := h
  obtain rfl : r = [.token .rBrace] := hr
  exact ⟨b ++ z, by simp⟩

theorem closed_of_held {head r : Pattern} (hh : (symbols head).all fun s => !s.kind.isHeld)
    (hr : ∀ v ∈ r.matches', (∃ y, v = y ++ [.token .rBrace]) ∨ ∀ s ∈ v, s.kind.isHeld = false)
    (h : w ∈ (head * r).matches') (hs : s ∈ w) (hk : s.kind.isHeld) :
    ∃ y, w = y ++ [.token .rBrace] := by
  obtain ⟨u, hu, v, hv, rfl⟩ := h
  rcases List.mem_append.mp hs with hs | hs
  · have := all_symbols hh hu s hs
    rw [hk] at this
    cases this
  · rcases hr v hv with ⟨y, rfl⟩ | hno
    · exact ⟨u ++ y, by simp⟩
    · rw [hno s hs] at hk
      cases hk

/-- Braces that hold something are closed behind it. -/
theorem rBrace_behind {k : NodeKind} (h : as ++ s :: bs ∈ k.production.matches') (hk : s.kind.isHeld) :
    Symbol.token .rBrace ∈ bs := by
  have hs : s ∈ as ++ s :: bs := by simp
  obtain ⟨y, hy⟩ : ∃ y, as ++ s :: bs = y ++ [.token .rBrace] := by
    by_cases ho : k.isObject
    · rw [NodeKind.production_of_isObject ho] at h
      refine closed_of_held (r := optional memberList) rfl (fun v hv => ?_) h hs hk
      rcases hv with hv | hv
      · exact .inl (mem_memberList hv)
      · obtain rfl : v = [] := hv
        exact .inr fun _ hs => (List.not_mem_nil hs).elim
    by_cases hd : k = .sectionDeclaration
    · subst hd
      refine closed_of_held (r := memberList + token .semicolon) rfl (fun v hv => ?_) h hs hk
      rcases hv with hv | hv
      · exact .inl (mem_memberList hv)
      · obtain rfl : v = [.token .semicolon] := hv
        exact .inr fun s hs => by rw [List.mem_singleton.mp hs]; rfl
    · have hp : (symbols k.production).all fun s => !s.kind.isHeld := by
        cases k <;> first | exact absurd rfl hd | decide +kernel | exact absurd rfl ho
      have := all_symbols hp h s hs
      rw [hk] at this
      cases this
  rcases List.eq_nil_or_concat bs with rfl | ⟨zs, z, rfl⟩
  · obtain ⟨-, hz⟩ := List.append_inj' hy rfl
    rw [List.singleton_inj.mp hz] at hk
    cases hk
  · rw [List.concat_eq_append, ← List.cons_append, ← List.append_assoc] at hy
    obtain ⟨-, hz⟩ := List.append_inj' hy rfl
    simp [hz]

end Pattern

namespace Tree

variable {o : Hole} {t : Tree} {k : Kind} {hs rs : List Tree}

theorem leavesOf_ne_nil_behind (h : Everywhere Rule (.node k (hs ++ t :: rs))) (ht : t.kind.isHeld) :
    leavesOf rs ≠ [] := by
  obtain ⟨j, rfl, hw, -⟩ := Hole.of_rule h.1 (u := t) (by simp)
  rw [List.map_append, List.map_cons] at hw
  obtain ⟨b, hb, hbs⟩ := List.mem_map.mp (Pattern.rBrace_behind hw (by rwa [kind_symbol]))
  have hbk : b.kind = TokenKind.rBrace := by rw [← kind_symbol, hbs]; rfl
  have hbr : Everywhere Rule b := Hole.everywhere_of_mem h.2 (by simp [hb])
  have hbl : b.leaves ≠ [] := by
    cases b with
    | leaf l => exact List.cons_ne_nil _ _
    | node k ts =>
        obtain rfl : k = TokenKind.rBrace := hbk
        exact hbr.1.elim
  obtain ⟨xs, ys, rfl⟩ := List.append_of_mem hb
  rw [leavesOf_append, leavesOf]
  exact List.append_ne_nil_of_right_ne_nil _ (List.append_ne_nil_of_left_ne_nil hbl _)

/-- A procedure, trigger or section is not the end of a text. -/
theorem Hole.behind_ne_nil (h : Everywhere Rule (.node k (o.plug t))) (ht : t.kind.isMember) :
    o.behind ≠ [] := by
  induction o generalizing k with
  | here as bs => exact leavesOf_ne_nil_behind h (by rw [Kind.isHeld, ht, Bool.true_or])
  | under as j o bs ih =>
      have hm : Tree.node j (o.plug t) ∈ plug t (under as j o bs) := List.mem_append_right _ List.mem_cons_self
      exact List.append_ne_nil_of_left_ne_nil (ih (everywhere_of_mem h.2 hm)) _

end Tree

/-! ## The new text -/

theorem Edit.apply_single (a m b s : Text) :
    Edit.apply [⟨⟨a.size, a.size + m.size⟩, s⟩] (a ++ (m ++ b)) = .ok (a ++ (s ++ b)) := by
  have hb : ∀ e ∈ [(⟨⟨a.size, a.size + m.size⟩, s⟩ : Edit)], e.Aligned (a ++ (m ++ b)) := fun e he => by
    rw [List.mem_singleton.mp he]
    refine ⟨Nat.le_add_right _ _, fun n hn _ => ?_⟩
    rcases List.mem_pair.mp hn with rfl | rfl
    · exact Text.isBoundary_iff.mpr ⟨a, _, rfl, rfl⟩
    · exact Text.isBoundary_iff.mpr ⟨a ++ m, b, by simp, Text.size_append a m⟩
  have hs : ∀ e ∈ [(⟨⟨a.size, a.size + m.size⟩, s⟩ : Edit)], e.span.stop ≤ (a ++ (m ++ b)).size := fun e he => by
    rw [List.mem_singleton.mp he, Text.size_append, Text.size_append]
    dsimp only
    omega
  rw [Edit.apply_apart hb hs (List.pairwise_singleton _ _), Edit.rewritten_before (by simp), Nat.zero_add,
    Edit.rewritten_at (e := ⟨⟨a.size, a.size + m.size⟩, s⟩) rfl (by simp), Edit.rewritten_nil]

theorem Edit.Joins.apply {text gap core before behind : Text} {e : Edit} {L M : List Lexeme}
    (h : e.Joins text gap core L M before behind) :
    Edit.apply [e] text =
      .ok (L.flatMap (·.text) ++ ((before ++ (core ++ behind)) ++ M.flatMap (·.text))) := by
  have ha := Edit.apply_single (L.flatMap (·.text)) [] (M.flatMap (·.text)) (before ++ (core ++ behind))
  rw [List.nil_append, ← h.cut.text_eq] at ha
  rw [h.edit, ← h.cut.size_eq]
  exact ha

/-! ## The trees of the new text -/

namespace SyntaxTree

variable {text t' : Text} {o : Hole} {t u d : Tree} {L S M P Q : List Lexeme} {n : Node}

theorem leavesOf_plug (hf : forest text = o.plug t) :
    Lexeme.solid (lex text) = o.before ++ (t.leaves ++ o.behind) := by
  rw [← Hole.leaves_plug, ← hf, leavesOf_forest, Text.lexemes_significant]
  rfl

/-- With more tokens among its own a text is read as before, with another procedure or object in place of
the one that has them. -/
theorem forest_swapped (h : (parse text).ok) (hf : forest text = o.plug t) (hr : Swaps t u)
    (hs : Spliced text t' L S M) (ht : t.leaves = P ++ Q)
    (hu : u.leaves = P ++ (Lexeme.solid S ++ Q)) (hL : (Lexeme.solid L).length = o.before.length + P.length) :
    (parse t').ok ∧ forest t' = o.plug u := by
  have hl : Lexeme.solid (lex t') = leavesOf (o.plug u) := by
    have ha : Lexeme.solid L ++ Lexeme.solid M = (o.before ++ P) ++ (Q ++ o.behind) := by
      rw [← solid_append, ← hs.eq, leavesOf_plug hf, ht]
      simp
    obtain ⟨hb, hm⟩ := List.append_inj ha (by rw [hL, List.length_append])
    rw [hs.eq', solid_append, solid_append, hb, hm, Hole.leaves_plug, hu]
    simp
  have hp := (reads_declarations hr ((ok_iff text).mp h) hf).outcome 0
  rw [List.append_nil, ← hl] at hp
  rw [ok_iff, forest, Text.lexemes_significant]
  exact ⟨hp.2, hp.1⟩

/-- The node of the number of a place shows the tree at this place. -/
theorem shownBy_of_plug (hf : forest text = o.plug t) (hn : n ∈ (parse text).nodes)
    (hi : n.id = o.number + 1) : t.ShownBy n := by
  obtain ⟨roots, rest, hl, -, -⟩ := exists_laid text
  rw [hf] at hl
  obtain ⟨_, ps, _, stop, ht, hx, -⟩ := hl.of_plug
  have hs := ht.shown fun p hp => Placed.token_mem_ofTokens _ _ p (hx.subset hp)
  obtain ⟨e, he, -⟩ := ht.roots_parent _ (List.mem_singleton_self _)
  obtain ⟨m, hg, -, hm⟩ := get?_of_entry he
  rw [List.filterMap_cons_some hg, List.filterMap_nil] at hs
  have hmi := (get?_eq_some.mp hg).2
  obtain rfl : m = n := Node.ext_id (hm.trans (mem_nodes.mp hn).symm) (by omega)
  exact hs.1

end SyntaxTree

/-! ## The new declaration -/

namespace Node

variable {text : Text} {n d : Node} {k m : Nat} {as cs bs : List Lexeme}

theorem Spans.of_stretch (h : n.Spans text k m) (hn : n ∈ (parse text).nodes)
    (hs : Stretch (lex text) as cs bs k m) : n.start = Text.size (as.flatMap (·.text)) ∧
      n.stop = Text.size (as.flatMap (·.text)) + Text.size (cs.flatMap (·.text)) ∧
      n.text = cs.flatMap (·.text) := by
  obtain ⟨_, _, _, hs', ha, hc, ht⟩ := h.exists_stretch hn
  obtain ⟨rfl, rfl, rfl⟩ := hs.unique hs'
  exact ⟨ha, hc, ht⟩

/-- A node of one token has the text of this token. -/
theorem Spans.text_of_lexeme {l : Lexeme} (h : n.Spans text (solid as).length 1) (hn : n ∈ (parse text).nodes)
    (hx : lex text = as ++ l :: bs) (hl : l.isSignificant) : n.text = l.text := by
  have hs : Stretch (lex text) as [l] bs (solid as).length 1 :=
    ⟨hx, rfl, by rw [solid_cons hl]; rfl, ⟨l, [], rfl, hl⟩, ⟨[], l, rfl, hl⟩⟩
  rw [(h.of_stretch hn hs).2.2, List.flatMap_singleton]

/-- The node declares a variable alone. -/
structure IsLine (d : Node) (v : Variable) : Prop where
  kind : d.kind = NodeKind.variableDeclaration
  name : d.name = some v.name
  type : d.typeOfEntry = v.declaredType

variable {v : Variable} {l : Lexeme} {us : List Tree} {ts A C : List Lexeme}

/-- Where the line of a variable stands in a text, a node declares it. -/
theorem isLine_of_shows (hl : v.Line l us ts) (hx : lex text = A ++ (lex v.sectionLine ++ C))
    (hd : Shows text (solid A).length [d] [Variable.declarationTree l us]) : d.IsLine v := by
  rw [hl.lexemes] at hx
  have hk : d.kind = NodeKind.variableDeclaration := hd.kind
  have hch : Shows text (solid A).length d.children (Variable.declarationTree l us).parts := hd.children
  rw [Variable.declarationTree, Tree.parts] at hch
  generalize hns : d.children = ns at hch
  cases hch with
  | @cons _ i _ _ _ hi hik his _ h =>
  cases h with
  | @cons _ c _ _ _ _ hck _ _ h =>
  cases h with
  | @cons _ r _ _ _ hr hrk hrs _ h =>
  cases h with
  | @cons _ z _ _ _ _ hzk _ _ h =>
  cases h
  have hlk : l.isSignificant := isSignificant_of_isName hl.isName
  obtain ⟨g, g', hts, hg, hg', hlead, hclose⟩ := core_split hl.ne_nil
  have hit : i.text = l.text := Spans.text_of_lexeme his hi hx hlk
  have hrt : r.text = v.declaredType := by
    have hs : Stretch (lex text) (A ++ (l :: Variable.colon :: g)) (core ts) (g' ++ Lexeme.semicolon :: C)
        ((solid A).length + 1 + 1) (leavesOf us).length := by
      refine ⟨?_, ?_, ?_, hlead, hclose⟩
      · rw [hx]
        nth_rewrite 1 [hts]
        simp
      · rw [solid_append, solid_cons hlk, solid_cons rfl, hg]
        simp
      · rw [hl.leavesOf]
        nth_rewrite 2 [hts]
        rw [solid_append, solid_append, hg, hg', List.append_nil, List.nil_append]
    rw [(Spans.of_stretch hrs hr hs).2.2, hl.declaredType]
  have hw : d.children.map word = [(i.kind, i.text), (c.kind, c.text), (r.kind, r.text), (z.kind, z.text)] := by
    rw [hns]
    rfl
  refine ⟨hk, ?_, ?_⟩
  · rw [name_eq_word hd.mem, hw, hk, hik, hit, hl.text]
    rfl
  · rw [typeOfEntry_eq_word, hw, hik, hck, hrk, hzk, hrt]
    rfl

namespace IsLine

theorem entryDeclarations (h : d.IsLine v) : d.entryDeclarations = [d] := by
  rw [Node.entryDeclarations, if_pos (by simp [is, h.kind])]

theorem declared (h : d.IsLine v) (hd : d ∈ (parse text).nodes) : d.declared = (v.name, v.declaredType) := by
  have he := declared_entry hd
  rw [h.entryDeclarations, h.type] at he
  have he : d.declared = (d.name.getD [], v.declaredType) := List.singleton_inj.mp he
  rw [he, h.name]
  rfl

end IsLine

end Node

end AlRefactor
