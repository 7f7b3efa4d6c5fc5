import AlRefactor.Proofs.Declaration.Objects
import AlRefactor.Proofs.Grammar.Brackets
import AlRefactor.Proofs.Syntax.Precedence

/-!
# Brackets and braces where nothing is wrong with a text

An attribute and the arguments of a section end with the bracket that closes their first one, as far
as round and square brackets are not told apart. An object has one opening brace, and one closing
brace behind everything else. Only the last object of a text may have none at all.
-/

namespace AlRefactor

open AlRefactor.Tree

/-! ## Braces -/

/-- One opening brace, and one closing brace behind everything else. -/
structure Kind.Braces (ks : List Kind) : Prop where
  opened : ks.count (.token .lBrace) = 1
  closed : ks.count (.token .rBrace) = 1
  last : ks.getLast? = some (.token .rBrace)

/-- Neither an opening nor a closing brace. -/
def Kind.Bare (ks : List Kind) : Prop := ∀ k ∈ ks, k ≠ TokenKind.lBrace ∧ k ≠ TokenKind.rBrace

namespace Kind.Bare

variable {ks : List Kind}

theorem count_lBrace (h : Bare ks) : ks.count (.token .lBrace) = 0 :=
  List.count_eq_zero.mpr fun hk => (h _ hk).1 rfl

theorem count_rBrace (h : Bare ks) : ks.count (.token .rBrace) = 0 :=
  List.count_eq_zero.mpr fun hk => (h _ hk).2 rfl

end Kind.Bare

namespace Pattern

variable {w : List Symbol}

/-- A pattern without braces. -/
theorem bare_of_symbols {r : Pattern}
    (hr : (symbols r).all fun s => s.kind != TokenKind.lBrace && s.kind != TokenKind.rBrace)
    (h : w ∈ r.matches') : Kind.Bare (w.map Symbol.kind) := by
  intro k hk
  obtain ⟨s, hs, rfl⟩ := List.mem_map.mp hk
  simpa using all_symbols hr h s hs

theorem braces_memberList {u v : List Symbol} (hu : Kind.Bare (u.map Symbol.kind))
    (hv : v ∈ memberList.matches') : Kind.Braces ((u ++ v).map Symbol.kind) := by
  obtain ⟨_, rfl, _, ⟨x, hx, _, rfl, rfl⟩, rfl⟩ := hv
  have hb := bare_of_symbols (by decide) hx
  constructor
  · simp [hu.count_lBrace, hb.count_lBrace, Symbol.kind]
  · simp [hu.count_rBrace, hb.count_rBrace, Symbol.kind]
  · rw [← List.append_assoc, ← List.append_assoc, List.map_append]
    exact List.getLast?_concat

theorem braces_object (h : w ∈ object.matches') :
    Kind.Braces (w.map Symbol.kind) ∨ Kind.Bare (w.map Symbol.kind) := by
  obtain ⟨u, hu, v, hv, rfl⟩ := h
  have hb := bare_of_symbols (by decide) hu
  rcases hv with hv | rfl
  · exact .inl (braces_memberList hb hv)
  · change _ ∨ Kind.Bare ((u ++ []).map Symbol.kind)
    rw [List.append_nil]
    exact .inr hb

end Pattern

namespace Tree

variable {ts : List Tree} {ns : List Node}

theorem ShownByAll.kinds (h : ShownByAll ts ns) : ns.map (·.kind) = ts.map Tree.kind := by
  induction ts generalizing ns with
  | nil => rw [show ns = [] from h]; rfl
  | cons t ts ih =>
      obtain ⟨m, ms, rfl, hm, hms⟩ := h.exists_cons
      rw [List.map_cons, List.map_cons, hm.kind, ih hms]

theorem ShownByAll.dropLast (h : ShownByAll ts ns) : ShownByAll ts.dropLast ns.dropLast := by
  induction ts generalizing ns with
  | nil => rw [show ns = [] from h]; rfl
  | cons t ts ih =>
      obtain ⟨m, ms, rfl, hm, hms⟩ := h.exists_cons
      cases ts with
      | nil => rw [show ms = [] from hms]; rfl
      | cons u us =>
          obtain ⟨n, ls, rfl, hn, hls⟩ := hms.exists_cons
          exact ⟨hm, ih hms⟩

end Tree

namespace SyntaxTree

variable {text : Text} {n o : Node}

/-- The children of a node that nothing is wrong with, by their kinds. -/
theorem kinds_of_kind (h : (parse text).ok) (hn : n ∈ (parse text).nodes) {k : NodeKind}
    (hk : n.kind = k) :
    ∃ w ∈ k.production.matches', n.children.map (·.kind) = w.map Symbol.kind := by
  refine ⟨_, matches_of_kind h hn hk, ?_⟩
  rw [List.map_map]
  exact List.map_congr_left fun m _ => (kind_symbol m).symm

/-! ## Objects -/

/-- Only a file has objects below it, and no file stands below anything. -/
theorem kind_above {p : Node} (h : (parse text).ok) (hp : p ∈ (parse text).nodes)
    (hn : n ∈ p.children) : n.kind ≠ NodeKind.compilationUnit ∧
      (n.kind.isObject → p.kind = NodeKind.compilationUnit) := by
  obtain ⟨_, _, hc⟩ | ⟨k, hk, hw⟩ := token_or_rule h hp
  · rw [hc] at hn
    cases hn
  · have hs : n.symbol ∈ p.children.map (·.symbol) := List.mem_map_of_mem hn
    by_cases hc : k = .compilationUnit
    · subst hc
      have := Pattern.all_symbols (p := fun s => s.kind != NodeKind.compilationUnit)
        (by decide) hw _ hs
      rw [kind_symbol] at this
      exact ⟨by simpa using this, fun _ => hk⟩
    · have := Pattern.all_symbols (NodeKind.symbols_of_ne_compilationUnit hc) hw _ hs
      rw [kind_symbol] at this
      simp only [Bool.and_eq_true, Bool.not_eq_true', bne_iff_ne] at this
      exact ⟨this.2, fun ho => absurd (this.1.symm.trans ho) Bool.false_ne_true⟩

/-- Objects are the outermost constructs of a text. -/
theorem mem_children_root (h : (parse text).ok) (ho : o ∈ (parse text).nodes)
    (hk : o.kind.isObject) : o ∈ (parse text).root.children := by
  have hi : o.id ≠ 0 := fun hi => by
    rw [kind_root ho hi] at hk
    cases hk
  obtain ⟨p, hp, hop⟩ := exists_above ho hi
  have hp0 : p.id = 0 := by
    by_contra hp0
    obtain ⟨q, hq, hpq⟩ := exists_above hp hp0
    exact (kind_above h hq hpq).1 ((kind_above h hp hop).2 hk)
  obtain ⟨t, i, hlt⟩ := p
  obtain rfl : t = parse text := mem_nodes.mp hp
  obtain rfl : i = 0 := hp0
  exact hop

/-- Where nothing is wrong with a text, every object has one opening brace, and one closing brace
behind everything else. Only the last object of the text may have no braces at all. -/
theorem objects_closed (h : (parse text).ok) (ho : o ∈ (parse text).nodes) (hk : o.kind.isObject) :
    Kind.Braces (o.children.map (·.kind)) ∨
      Kind.Bare (o.children.map (·.kind)) ∧ (parse text).root.children.getLast? = some o := by
  have hr := mem_children_root h ho hk
  have hw : Kind.Braces (o.children.map (·.kind)) ∨ Kind.Bare (o.children.map (·.kind)) := by
    cases hok : o.kind with
    | token k => rw [hok] at hk; cases hk
    | node k =>
        obtain ⟨w, hw, hc⟩ := kinds_of_kind h ho hok
        rw [hok] at hk
        rw [NodeKind.production_of_isObject hk] at hw
        rw [hc]
        exact Pattern.braces_object hw
  refine hw.imp id fun hb => ⟨hb, ?_⟩
  by_contra hl
  -- An object that is not the last one has a closing brace.
  have hd := List.mem_dropLast_of_mem_of_ne_getLast? hr (Ne.symm hl)
  obtain ⟨t, ht, hs⟩ := ((root_shows text).2.dropLast).exists_of_mem hd
  have hbr := (Grammar.matched_declarations ((ok_iff text).mp h)).2 t ht
  cases t with
  | leaf l => rw [hs.1] at hk; cases hk
  | node k ts =>
      obtain ⟨b, hbt, hbk⟩ := hbr (hs.1 ▸ hk)
      refine (hb b.kind ?_).2 hbk
      rw [hs.2.kinds]
      exact List.mem_map_of_mem hbt

/-- The text ends with the header. -/
example : (parse "codeunit 1 X".toList).ok := by decide +kernel

/-! ## Attributes and arguments of sections -/

/-- Where nothing is wrong with a text, the bracket that opens an attribute or the arguments of a
section is closed by its last token, which is not always a bracket of the same kind. -/
theorem stretches_closed (h : (parse text).ok) (hn : n ∈ (parse text).nodes) {k : NodeKind}
    {opening : TokenKind} (hk : n.kind = k) (hs : (k, opening) ∈
      [(NodeKind.memberAttribute, TokenKind.lBracket), (.sectionArguments, .lParen)]) :
    n.children.head?.map (·.kind) = some (.token opening) ∧
      (∃ closing ∈ [TokenKind.rParen, .rBracket],
        n.children.getLast?.map (·.kind) = some (.token closing)) ∧
      Kind.Nested (n.children.map (·.kind)) := by
  have hp : k.production = .stretch opening ∧ (k = .memberAttribute ∨ k = .sectionArguments) := by
    simp only [List.mem_cons, Prod.mk.injEq, List.not_mem_nil, or_false] at hs
    obtain ⟨rfl, rfl⟩ | ⟨rfl, rfl⟩ := hs
    · exact ⟨rfl, .inl rfl⟩
    · exact ⟨rfl, .inr rfl⟩
  obtain ⟨w, hw, hc⟩ := kinds_of_kind h hn hk
  rw [hp.1] at hw
  obtain ⟨_, ⟨_, rfl, v, hv, rfl⟩, _, hq, rfl⟩ := hw
  obtain ⟨closing, hcl, rfl⟩ := Pattern.mem_tokens.mp hq
  refine ⟨?_, ⟨closing, hcl, ?_⟩, ?_⟩
  · rw [← List.head?_map, hc]
    rfl
  · rw [← List.getLast?_map, hc, List.map_append]
    exact List.getLast?_concat
  · obtain ⟨t, ht, hm⟩ := exists_shown (P := Matched)
      ⟨matched_of_not_mem _ (by decide), (Grammar.matched_declarations ((ok_iff text).mp h)).1⟩ hn
    cases t with
    | leaf l => cases hk.symm.trans ht.1
    | node j ts =>
        rw [ht.2.kinds]
        exact hm.1 (by rw [← ht.1, hk]; simpa using hp.2)

/-- The bracket that opens the attribute is a square one, and the one that closes it is a round one. -/
theorem attribute_mismatched :
    (parse "codeunit 1 X \x7b [A) procedure P() begin end; \x7d".toList).ok ∧
      ∃ n ∈ (parse "codeunit 1 X \x7b [A) procedure P() begin end; \x7d".toList).nodes,
        n.kind = NodeKind.memberAttribute ∧ n.children.map (·.kind) =
          [TokenKind.lBracket, TokenKind.ident, TokenKind.rParen].map Kind.token := by
  decide +kernel

end SyntaxTree

end AlRefactor
