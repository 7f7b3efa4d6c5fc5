import AlRefactor.Proofs.Declaration.Passing
import AlRefactor.Proofs.Declaration.Reread

/-!
# The parameters of a procedure

A procedure with further parameters behind its last one, or in its empty list, is read with these behind
the others. What stands there is a semicolon, the closing bracket, or layout.
-/

namespace AlRefactor

open AlRefactor.Tree Lexeme SyntaxTree Grammar

/-! ## What stands behind a parameter -/

namespace Pattern

variable {w : List Symbol}

/-- Behind the last parameter a semicolon may stand. -/
theorem mem_parameters (h : w ∈ parameters.matches') :
    ∃ as bs, w = as ++ .node .parameter :: bs ∧ (bs = [] ∨ bs = [.token .semicolon]) := by
  obtain ⟨_, ⟨u, hu, v, hv, rfl⟩, bs, hb, rfl⟩ := h
  obtain rfl : u = [.node .parameter] := hu
  obtain ⟨xs, rfl, hxs⟩ := Language.mem_kstar.mp hv
  rcases List.eq_nil_or_concat xs with rfl | ⟨ys, y, rfl⟩
  · exact ⟨[], bs, rfl, hb.symm⟩
  · obtain ⟨z, hz, p, hp, hy⟩ := hxs y (by simp)
    obtain rfl : z = [.token .semicolon] := hz
    obtain rfl : p = [.node .parameter] := hp
    subst hy
    exact ⟨[.node .parameter] ++ ys.flatten ++ [.token .semicolon], bs, by simp, hb.symm⟩

theorem mem_parameterList (h : w ∈ NodeKind.parameterList.production.matches') :
    ∃ u, w = .token .lParen :: (u ++ [.token .rParen]) ∧
      (u = [] ∨ ∃ as bs, u = as ++ .node .parameter :: bs ∧ (bs = [] ∨ bs = [.token .semicolon])) := by
  obtain ⟨_, ⟨l, hl, u, hu, rfl⟩, r, hr, rfl⟩ := h
  obtain rfl : l = [.token .lParen] := hl
  obtain rfl : r = [.token .rParen] := hr
  refine ⟨u, by simp, ?_⟩
  rcases hu with hu | hu
  · exact .inr (mem_parameters hu)
  · exact .inl hu

end Pattern

namespace Tree

variable {as bs : List Tree} {r : Tree}

/-- Behind the last parameter a semicolon or the closing bracket follows. -/
theorem behind_parameter (h : Rule NodeKind.parameterList (as ++ r :: bs)) (hr : r.kind = NodeKind.parameter)
    (hb : ∀ b ∈ bs, b.kind ≠ NodeKind.parameter) :
    ∃ k xs, bs.map Tree.symbol = .token k :: xs ∧ (k = .semicolon ∨ k = .rParen) := by
  obtain ⟨u, hw, hu⟩ := Pattern.mem_parameterList h
  rw [List.map_append, List.map_cons] at hw
  rcases hu with rfl | ⟨cs, ds, rfl, hd⟩
  · have hm : r.symbol ∈ as.map Tree.symbol ++ r.symbol :: bs.map Tree.symbol := by simp
    rw [← kind_symbol] at hr
    rw [hw] at hm
    simp only [List.nil_append, List.mem_cons, List.not_mem_nil, or_false] at hm
    rcases hm with hm | hm <;> rw [hm] at hr <;> cases hr
  · have hcut : as.map Tree.symbol ++ r.symbol :: bs.map Tree.symbol =
        (.token .lParen :: cs) ++ .node .parameter :: (ds ++ [.token .rParen]) := by
      rw [hw]
      simp
    obtain ⟨-, -, hbs⟩ := cut_last (P := fun x : Symbol => x.kind != NodeKind.parameter) hcut
      (by simp [kind_symbol, hr]) (by simpa [kind_symbol] using hb) rfl (by rcases hd with rfl | rfl <;> decide)
    rcases hd with rfl | rfl
    · exact ⟨_, _, hbs, .inr rfl⟩
    · exact ⟨_, _, hbs, .inl rfl⟩

/-- Behind the opening bracket of an empty list the closing one follows. -/
theorem behind_lParen (h : Rule NodeKind.parameterList (as ++ r :: bs)) (hr : r.kind = TokenKind.lParen)
    (hn : ∀ u ∈ as ++ r :: bs, u.kind ≠ NodeKind.parameter) : bs.map Tree.symbol = [.token .rParen] := by
  obtain ⟨u, hw, hu⟩ := Pattern.mem_parameterList h
  rcases hu with rfl | ⟨cs, ds, rfl, -⟩
  · rw [List.map_append, List.map_cons] at hw
    cases as with
    | nil => exact (List.cons.inj hw).2
    | cons a as =>
        obtain ⟨-, hs⟩ | ⟨-, hs⟩ := List.append_eq_singleton_iff.mp (List.cons.inj hw).2
        · rw [← kind_symbol, (List.cons.inj hs).1] at hr
          cases hr
        · cases hs
  · have hm : .node .parameter ∈ (as ++ r :: bs).map Tree.symbol := by rw [hw]; simp
    obtain ⟨u, hu, hus⟩ := List.mem_map.mp hm
    exact absurd (by rw [← kind_symbol, hus]; rfl) (hn u hu)

end Tree

/-! ## Where the tokens of further parameters go -/

namespace Text

variable {t : Text} {L M : List Lexeme} {l m : Lexeme} {p : Nat}

theorem Cut.token_behind (h : t.Cut L (m :: M) p) : ⟨m, p⟩ ∈ t.tokens := by
  have hp : (⟨m, p⟩ : Token) ∈ place (0 + size (L.flatMap (·.text))) (m :: M) := by
    rw [h.size_eq, Nat.zero_add]
    exact List.mem_cons_self
  rw [tokens, h.eq, place_append]
  exact List.mem_append_right _ hp

theorem Cut.token_before (h : t.Cut (L ++ [l]) M p) : ∃ q ∈ t.tokens, q.toLexeme = l ∧ q.stop = p := by
  have hc : t.Cut L (l :: M) (size (L.flatMap (·.text))) := ⟨by rw [h.eq]; simp, rfl⟩
  refine ⟨_, hc.token_behind, rfl, ?_⟩
  rw [← h.size_eq, List.flatMap_append, size_append]
  simp [Token.stop]

end Text

/-- New text keeps apart from the tokens beside it: it is not put behind a literal that is not closed, nor
does a slash at its end meet a comment. -/
structure Edit.KeepsApart (e : Edit) (text : Text) : Prop where
  closed : ∀ q ∈ text.tokens, q.stop = e.span.start → q.kind ≠ .error
  apart : e.text.getLast? = some '/' → ∀ q ∈ text.tokens, q.start = e.span.start →
    q.kind ≠ .lineComment ∧ q.kind ≠ .blockComment

namespace Variable

variable {text : Text} {e : Edit} {v : Variable} {vs : List Variable} {L M : List Lexeme} {m : Lexeme}

/-- What stands behind new text that keeps apart from it. -/
theorem exists_behind (ha : e.KeepsApart text) (hc : text.Cut L (m :: M) e.span.start)
    (hm : m.kind.isTrivia ∨ m.kind = .semicolon ∨ m.kind = .rParen) :
    ∃ d w, (m :: M).flatMap (·.text) = d :: w ∧ isSeparator d ∧ (d = '/' → e.text.getLast? ≠ some '/') := by
  obtain ⟨d, w, hd, hs, hcomment⟩ := exists_separator hc.eq hm
  refine ⟨d, w ++ M.flatMap (·.text), by rw [List.flatMap_cons, hd, List.cons_append], hs, fun he hl => ?_⟩
  obtain ⟨hline, hblock⟩ := ha.apart hl _ hc.token_behind rfl
  exact (hcomment he).elim hline hblock

/-- Further parameters behind a token. -/
theorem spliced_behind (hv : ∀ v ∈ vs, v.Passable) (hne : vs ≠ []) (ha : e.KeepsApart text)
    (he : e.text = furtherText vs) (hc : text.Cut L (m :: M) e.span.start) (hL : Closes L)
    (hm : m.kind.isTrivia ∨ m.kind = .semicolon ∨ m.kind = .rParen) :
    Spliced text (L.flatMap (·.text) ++ (e.text ++ (m :: M).flatMap (·.text))) L (furtherLexemes vs) (m :: M) := by
  obtain ⟨d, w, hd, hs, hslash⟩ := exists_behind ha hc hm
  rw [he] at hslash ⊢
  have hrest := lex_furtherText hv hs hslash w
  rw [← hd, lex_rest hc.eq] at hrest
  have ht := hc.eq
  rw [hc.text_eq] at ht
  have hfree : Frees L ((m :: M).flatMap (·.text)) ';' := by
    obtain ⟨ms, l, rfl, hl⟩ := hL
    obtain ⟨q, hq, rfl, hp⟩ := hc.token_before
    exact .closed rfl hl (ha.closed q hq hp)
  refine ⟨hc.eq, ?_⟩
  obtain ⟨v, vs, rfl⟩ := List.exists_cons_of_ne_nil hne
  rw [furtherText_cons, List.cons_append] at hrest ⊢
  rw [lex_append_separator ht rfl hfree rfl (fun h => by cases h), hrest]

/-- Parameters between the brackets of an empty list. -/
theorem spliced_into (hv : ∀ u ∈ v :: vs, u.Passable) (ha : e.KeepsApart text)
    (he : e.text = parameterList (v :: vs)) (hc : text.Cut (L ++ [lParen]) (m :: M) e.span.start)
    (hm : m.kind.isTrivia ∨ m.kind = .semicolon ∨ m.kind = .rParen) :
    Spliced text ((L ++ [lParen]).flatMap (·.text) ++ (e.text ++ (m :: M).flatMap (·.text))) (L ++ [lParen])
      (lex v.declaration ++ furtherLexemes vs) (m :: M) := by
  obtain ⟨d, w, hd, hs, hslash⟩ := exists_behind ha hc hm
  rw [he] at hslash ⊢
  have hrest := lex_parameterList hv hs hslash w
  rw [← hd, lex_rest hc.eq] at hrest
  have ht := hc.eq
  rw [hc.text_eq, List.flatMap_append, List.flatMap_singleton, List.append_assoc, List.append_assoc] at ht
  refine ⟨hc.eq, ?_⟩
  rw [List.flatMap_append, List.flatMap_singleton, List.append_assoc, List.append_assoc, ← hrest,
    List.singleton_append, ← lex_lParen]
  exact lex_append_separator ht rfl (.same rfl rfl rfl) rfl (fun h => by cases h) _

end Variable

/-! ## Parameters as nodes -/

theorem Shows.forall_node_kind {P : Kind → Prop} {text : Text} {k : Nat} {ns : List Node} {ts : List Tree}
    (h : Shows text k ns ts) (hP : ∀ t ∈ ts, P t.kind) : ∀ n ∈ ns, P n.kind := fun n hn => by
  have hk : n.kind ∈ ts.map Tree.kind := h.kinds ▸ List.mem_map_of_mem hn
  obtain ⟨t, ht, htn⟩ := List.mem_map.mp hk
  exact htn ▸ hP t ht

/-- What a parameter is: its name, its type, and whether it is passed by reference. -/
def Variable.passed (v : Variable) : Text × Text × Bool := (v.name, v.type, v.byReference)

namespace Node

variable {text t' : Text} {n n' d : Node} {L S M A C : List Lexeme}

theorem passed_toParameter (n : Node) : n.toParameter.passed = (n.name.getD [],
    (wordOf? NodeKind.typeReference (n.children.map word)).getD [],
    (wordOf? TokenKind.kwVar (n.children.map word)).isSome) := by
  have hchild (k : Kind) : wordOf? k (n.children.map word) = (n.child? k).map (·.text) := by
    rw [wordOf?, child?, List.find?_map, Option.map_map]
    rfl
  have howner (v : Variable) (o : Option Text) : (v.ownedBy? o).passed = v.passed := by cases o <;> rfl
  rw [toParameter, howner, hchild (.node .typeReference), hchild (.token .kwVar), Option.isSome_map]
  rfl

theorem passed_of_twin (hS : Spliced text t' L S M) (h : Twin text t' L S n n') :
    n.toParameter.passed = n'.toParameter.passed := by
  rw [passed_toParameter, passed_toParameter, h.name hS, h.words hS]

variable {v : Variable} {vs : List Variable} {l : Lexeme} {us qs : List Tree} {q : Tree} {ns : List Node}

/-- Where a variable stands in a text as a parameter, the node is this parameter. -/
theorem passed_of_shows (hv : v.Passable) (hq : v.PassedAs q)
    (hx : lex text = A ++ (lex v.declaration ++ C)) (hd : Shows text (solid A).length [d] [q]) :
    d.kind = NodeKind.parameter ∧ d.toParameter.passed = v.passed := by
  obtain ⟨l, us, hp, rfl⟩ := hq
  have hk : d.kind = NodeKind.parameter := hd.kind
  have hch : Shows text (solid A).length d.children (v.word.map .leaf ++
      [.node NodeKind.identifierName [.leaf l], .leaf Variable.colon, .node NodeKind.typeReference us]) := hd.children
  obtain ⟨ws, ns, hc, hws, hns⟩ := hch.split_trees
  obtain ⟨B, hB, hfront⟩ := hp.exists_front hx
  rw [← hfront] at hns
  cases hns with
  | @cons _ i _ _ _ hi hik his _ h =>
  cases h with
  | @cons _ c _ _ _ _ hck _ _ h =>
  cases h with
  | @cons _ r _ _ _ hr hrk hrs _ h =>
  cases h
  have hl := isSignificant_of_isName hp.isName
  have hit : i.text = v.name := (Spans.text_of_lexeme his hi hB hl).trans hp.text
  -- The type starts and ends with a significant token, so nothing around it belongs to the node.
  have hrt : r.text = v.type := by
    have hs : Stretch (lex text) (B ++ [l, Variable.colon, blank]) (lex v.type) C ((solid B).length + 1 + 1)
        (leavesOf us).length := by
      obtain ⟨ms, z, hz, hzs, -⟩ := hv.closes
      refine ⟨by rw [hB]; simp, ?_, by rw [hp.leavesOf], hv.leads, ⟨ms, z, hz, hzs⟩⟩
      rw [solid_append, solid_cons hl, List.length_append]
      rfl
    rw [(Spans.of_stretch hrs hr hs).2.2, flatMap_text_lex]
  have hw : ws.map (·.kind) = v.word.map fun l => .token l.kind := by
    rw [hws.kinds, List.map_map]
    rfl
  have hwords : d.children.map word =
      ws.map word ++ [(i.kind, i.text), (c.kind, c.text), (r.kind, r.text)] := by
    rw [hc, List.map_append]
    rfl
  refine ⟨hk, ?_⟩
  rw [passed_toParameter, name_eq_word hd.mem, hk, hwords, hik, hck, hrk, hit, hrt, Variable.passed]
  rw [Variable.word] at hw
  cases hb : v.byReference with
  | false =>
      rw [hb] at hw
      obtain rfl := List.map_eq_nil_iff.mp hw
      rfl
  | true =>
      rw [hb] at hw
      obtain ⟨w, rfl, hwk⟩ := List.map_eq_singleton_iff.mp hw
      rw [List.map_singleton, word, hwk]
      rfl

/-- Further parameters where they stand in a text. -/
theorem map_passed_separated (hv : ∀ v ∈ vs, v.Passable) (hq : List.Forall₂ Variable.PassedAs vs qs)
    (hx : lex text = A ++ (Variable.furtherLexemes vs ++ C)) (hs : Shows text (solid A).length ns (separated qs)) :
    ((ns.filter (·.is NodeKind.parameter)).map fun d => d.toParameter.passed) = vs.map Variable.passed := by
  induction hq generalizing A ns with
  | nil =>
      cases hs
      rfl
  | @cons v q vs qs hp hq ih =>
      obtain ⟨hpv, hv⟩ := List.forall_mem_cons.mp hv
      rw [separated_cons] at hs
      cases hs with
      | @cons _ z ns _ _ hz hzk hzs _ hs =>
      cases hs with
      | @cons _ d ns _ _ hd hdk hds hdc hs =>
      have hA : (solid (A ++ [Lexeme.semicolon, blank])).length = (solid A).length + 1 := by
        rw [solid_append, List.length_append]
        rfl
      have hone := passed_of_shows (A := A ++ [Lexeme.semicolon, blank]) (C := Variable.furtherLexemes vs ++ C)
        hpv hp (by rw [hx]; simp) (by rw [hA]; exact .cons hd hdk hds hdc .nil)
      have hmore := ih hv (A := A ++ [Lexeme.semicolon, blank] ++ lex v.declaration) (by rw [hx]; simp)
        (by rw [solid_append, List.length_append, hA, ← hp.leaves]; exact hs)
      have hzp : z.is NodeKind.parameter = false := by rw [is, hzk]; rfl
      rw [List.filter_cons_of_neg (by rw [hzp]; decide), List.filter_cons_of_pos (by simp [is, hone.1]),
        List.map_cons, List.map_cons, hone.2, hmore]

/-- The first node of a kind shows the first tree of this kind. -/
theorem child?_of_shows {j : Kind} {i : Nat} {ts ts' : List Tree} {r : Tree}
    (h : Shows text i n.children (ts ++ r :: ts')) (hf : ∀ u ∈ ts, u.kind ≠ j) (hr : r.kind = j) :
    ∃ m, n.child? j = some m ∧ Shows text (i + (leavesOf ts).length) [m] [r] := by
  obtain ⟨xs, ys, hc, hx, hy⟩ := h.split_trees
  cases hy with
  | @cons _ m zs _ _ hm hk hs hmc hz =>
  have hxk := hx.forall_node_kind (P := (· ≠ j)) hf
  refine ⟨m, ?_, .cons hm hk hs hmc .nil⟩
  exact List.find?_eq_some_iff_append.mpr ⟨by simp [is, hk, hr], xs, zs, hc, fun x hx => by simp [is, hxk x hx]⟩

/-- The tokens and the trees of further parameters. -/
structure Adds (vs : List Variable) (S : List Lexeme) (us : List Tree) : Prop where
  leaves : solid S = leavesOf us
  passed {t : Text} {A C : List Lexeme} {ns : List Node} : lex t = A ++ (S ++ C) → Shows t (solid A).length ns us →
    (ns.filter (·.is NodeKind.parameter)).map (·.toParameter.passed) = vs.map Variable.passed

theorem adds_separated (hv : ∀ v ∈ vs, v.Passable) (hq : List.Forall₂ Variable.PassedAs vs qs) :
    Adds vs (Variable.furtherLexemes vs) (separated qs) :=
  ⟨(Variable.leavesOf_separated hq).symm, map_passed_separated hv hq⟩

theorem adds_listed (hv : ∀ u ∈ v :: vs, u.Passable) (hq : List.Forall₂ Variable.PassedAs (v :: vs) qs) :
    Adds (v :: vs) (lex v.declaration ++ Variable.furtherLexemes vs) (separated qs).tail := by
  obtain ⟨hpv, hv⟩ := List.forall_mem_cons.mp hv
  cases hq with
  | @cons _ q _ qs hp hq =>
  rw [separated_cons, List.cons_append, List.tail_cons, List.singleton_append]
  refine ⟨?_, fun {t A C ns} hx hs => ?_⟩
  · rw [solid_append, leavesOf, hp.leaves, Variable.leavesOf_separated hq]
  · cases hs with
    | @cons _ d ns _ _ hd hdk hds hdc hs =>
    rw [List.append_assoc] at hx
    have hone := passed_of_shows hpv hp hx (.cons hd hdk hds hdc .nil)
    have hmore := map_passed_separated hv hq (A := A ++ lex v.declaration) (C := C) (by rw [hx]; simp)
      (by rw [solid_append, List.length_append, ← hp.leaves]; exact hs)
    rw [List.filter_cons_of_pos (by simp [is, hone.1]), List.map_cons, List.map_cons, hone.2, hmore]

/-- In a list with further parameters behind its last one, these follow the others. -/
theorem map_passed_append {i : Nat} {ms : List Node} {ts bs : List Tree} (hS : Spliced text t' L S M)
    (ha : Adds vs S us) (h : Shows text i ns (ts ++ bs)) (h' : Shows t' i ms (ts ++ (us ++ bs)))
    (hL : (solid L).length = i + (leavesOf ts).length) (hb : ∀ b ∈ bs, b.kind ≠ NodeKind.parameter) :
    (ms.filter (·.is NodeKind.parameter)).map (·.toParameter.passed) =
      (ns.filter (·.is NodeKind.parameter)).map (·.toParameter.passed) ++ vs.map Variable.passed := by
  obtain ⟨xs, zs, rfl, hx, hz⟩ := h.split_trees
  obtain ⟨xs', ys', rfl, hx', hy'⟩ := h'.split_trees
  obtain ⟨ys, zs', rfl, hy, hz'⟩ := hy'.split_trees
  have hno {ns : List Node} {t : Text} {i : Nat} (hn : Shows t i ns bs) : ns.filter (·.is NodeKind.parameter) = [] :=
    List.filter_eq_nil_iff.mpr fun x hx => by
      simpa [is] using hn.forall_node_kind (P := (· ≠ NodeKind.parameter)) hb x hx
  have hfront : (xs.filter (·.is NodeKind.parameter)).map (·.toParameter.passed) =
      (xs'.filter (·.is NodeKind.parameter)).map (·.toParameter.passed) := by
    have htwins := twins (L := L) (S := S) (.inl ⟨rfl, by omega⟩) hx hx'
    exact map_eq_of_forall₂ (List.rel_filter (fun _ _ hab => iff_of_eq (congrArg (· = true) (hab.is _).symm)) htwins)
      fun _ _ hab => passed_of_twin hS hab
  rw [← hL] at hy
  rw [List.filter_append, List.filter_append, List.filter_append, hno hz, hno hz', List.append_nil, List.append_nil,
    List.map_append, hfront, ha.passed hS.eq' hy]

/-! ## Places in a list of parameters -/

section

variable {o : Hole} {j : Kind} {m : Node} {ys ws : List Node} {cs hts as bs rts : List Tree} {r : Tree}

/-- A node in the list of parameters of a procedure: what stands around it, among the trees of the procedure
and among the tokens of the text. -/
structure InList (text : Text) (o : Hole) (cs : List Tree) (m : Node) (ys ws : List Node)
    (hts as : List Tree) (r : Tree) (bs rts : List Tree) (L M : List Lexeme) : Prop where
  parts : cs = hts ++ .node NodeKind.parameterList (as ++ r :: bs) :: rts
  first : ∀ u ∈ hts, u.kind ≠ NodeKind.parameterList
  before : ∃ i, Shows text i ys as
  kind : m.kind = r.kind
  behind : ∃ i, Shows text i ws bs
  cut : text.Cut L M m.stop
  closes : Closes L
  front : solid L = o.before ++ (leavesOf hts ++ (leavesOf as ++ r.leaves))
  back : solid M = leavesOf bs ++ (leavesOf rts ++ o.behind)

theorem exists_inList (hf : forest text = o.plug (.node j cs)) (hs : Shows text o.before.length [n] [.node j cs])
    {l : Node} (hl : n.child? NodeKind.parameterList = some l) (hm : l.children = ys ++ m :: ws) :
    ∃ hts as r bs rts L M, InList text o cs m ys ws hts as r bs rts L M := by
  obtain ⟨hlk, xs, zs, hx, hxs⟩ := List.find?_eq_some_iff_append.mp hl
  have hlk : l.kind = NodeKind.parameterList := by simpa [is] using hlk
  have hch : Shows text o.before.length n.children cs := hs.children
  rw [hx] at hch
  obtain ⟨hts, t, rts, rfl, hfront, ht, -⟩ := hch.split_at
  obtain ⟨ps, rfl⟩ : ∃ ps, t = .node NodeKind.parameterList ps := by
    have htk : t.kind = NodeKind.parameterList := ht.kind.symm.trans hlk
    cases t with
    | leaf l => cases htk
    | node k ps => exact ⟨ps, by rw [← htk]; rfl⟩
  have hps : Shows text (o.before.length + (leavesOf hts).length) l.children ps := ht.children
  rw [hm] at hps
  obtain ⟨as, r, bs, rfl, hbefore, hr, hbehind⟩ := hps.split_at
  obtain ⟨L, M, hcut, hL, hclose⟩ := hr.spans.cut_stop hr.mem
  have hleaves : solid L ++ solid M = (o.before ++ (leavesOf hts ++ (leavesOf as ++ r.leaves))) ++
      (leavesOf bs ++ (leavesOf rts ++ o.behind)) := by
    rw [← solid_append, ← hcut.eq, leavesOf_plug hf]
    simp [Tree.leaves, leavesOf]
  obtain ⟨hfr, hbk⟩ := List.append_inj hleaves (by simp only [List.length_append]; omega)
  refine ⟨hts, as, r, bs, rts, L, M, rfl, ?_, ⟨_, hbefore⟩, hr.kind, ⟨_, hbehind⟩, hcut, hclose, hfr, hbk⟩
  exact hfront.forall_kind (P := (· ≠ NodeKind.parameterList)) fun x hx => by simpa [is] using hxs x hx

namespace InList

variable (h : (parse text).ok) (hf : forest text = o.plug (.node j cs))
  (hi : InList text o cs m ys ws hts as r bs rts L M)

include h hf hi

theorem rule : Everywhere Rule (.node NodeKind.parameterList (as ++ r :: bs)) := by
  have hn : Everywhere Rule (.node j cs) := Hole.everywhere_plug (hf ▸ (rule_forest h).2)
  exact Hole.everywhere_of_mem hn.2 (by rw [hi.parts]; simp)

/-- Where a semicolon or the closing bracket is next among the trees of a list, it is next in the text but for
layout. -/
theorem exists_next (hb : ∃ k xs, bs.map Tree.symbol = .token k :: xs ∧ (k = .semicolon ∨ k = .rParen)) :
    ∃ z N, M = z :: N ∧ (z.kind.isTrivia ∨ z.kind = .semicolon ∨ z.kind = .rParen) := by
  obtain ⟨k, xs, hb, hk⟩ := hb
  obtain ⟨b, bs, rfl, hbs, -⟩ := List.map_eq_cons_iff.mp hb
  have hbr : Everywhere Rule b := Hole.everywhere_of_mem (hi.rule h hf).2 (by simp)
  have hbk : b.kind = k := by rw [← Tree.kind_symbol, hbs]; rfl
  obtain ⟨l, rfl, hlk⟩ := exists_leaf hbr hbk
  have hback := hi.back
  cases M with
  | nil => cases hback
  | cons z N =>
      refine ⟨z, N, rfl, ?_⟩
      cases hz : z.isSignificant with
      | false => exact .inl (by simpa [isSignificant] using hz)
      | true =>
          rw [solid_cons hz] at hback
          rw [(List.cons.inj hback).1, hlk]
          exact .inr hk

/-- The opening bracket of a list is the last token in front of what follows it. -/
theorem exists_bracket (hr : r.kind = TokenKind.lParen) : ∃ N, L = N ++ [lParen] := by
  obtain ⟨x, rfl, hx⟩ := exists_leaf (Hole.everywhere_of_mem (hi.rule h hf).2 (u := r) (by simp)) hr
  obtain ⟨N, y, rfl, hy⟩ := hi.closes
  have hfront := hi.front
  rw [solid_append, solid_cons hy, ← List.append_assoc, ← List.append_assoc] at hfront
  obtain ⟨-, hyx⟩ := List.append_inj' hfront rfl
  have hyk : y.kind = .lParen := by rw [(List.cons.inj hyx).1, hx]
  exact ⟨N, by rw [eq_lParen (hi.cut.eq.trans (List.append_assoc ..)) hyk]⟩

end InList

/-- The last child of a kind, and what stands around it. -/
theorem exists_of_lastChild? {l : Node} {k : Kind} (hm : l.lastChild? k = some m) :
    ∃ ys ws, l.children = ys ++ m :: ws ∧ m.kind = k ∧ ∀ w ∈ ws, w.kind ≠ k := by
  obtain ⟨xs, hx⟩ := List.getLast?_eq_some_iff.mp hm
  obtain ⟨ys, zs, hc, -, hz⟩ := List.filter_eq_append_iff.mp hx
  obtain ⟨us, ws, rfl, -, hmk, hw⟩ := List.filter_eq_cons_iff.mp hz
  refine ⟨ys ++ us, ws, by rw [hc, List.append_assoc], by simpa [is] using hmk, fun w hm => ?_⟩
  simpa [is] using List.filter_eq_nil_iff.mp hw w hm

end

end Node

end AlRefactor
