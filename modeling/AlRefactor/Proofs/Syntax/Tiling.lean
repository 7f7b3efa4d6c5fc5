import AlRefactor.Proofs.Syntax.Order

/-!
# Ranges with layout leave no gap

The range of a token with the layout that belongs to it starts where that of the token before ends. So
these ranges tile a text up to the layout behind its last token. If nothing is wrong with a text, the
ranges of the children of a node tile that of the node, whatever layout stands between them.
-/

namespace AlRefactor

open AlRefactor.Tree

/-! ## Ranges in a row -/

/-- Each range starts where the one before it ends, the first one at an offset, and the last one ends
at another one. -/
def Span.Tile : Nat → List Span → Nat → Prop
  | i, [], j => i = j
  | i, s :: ss, j => s.start = i ∧ s.start ≤ s.stop ∧ Span.Tile s.stop ss j

namespace Span.Tile

variable {i j : Nat} {ss : List Span} {s : Span}

theorem le (h : Tile i ss j) : i ≤ j := by
  induction ss generalizing i with
  | nil => exact Nat.le_of_eq h
  | cons s ss ih => exact Nat.le_trans (Nat.le_of_eq h.1.symm) (Nat.le_trans h.2.1 (ih h.2.2))

theorem bounds (h : Tile i ss j) : ∀ s ∈ ss, i ≤ s.start ∧ s.start ≤ s.stop ∧ s.stop ≤ j := by
  induction ss generalizing i with
  | nil => nofun
  | cons s ss ih =>
      obtain ⟨rfl, hs, h⟩ := h
      intro u hu
      rcases List.mem_cons.mp hu with rfl | hu
      · exact ⟨Nat.le_refl _, hs, h.le⟩
      · have := ih h u hu
        omega

theorem getLast (h : Tile i ss j) (hs : ss.getLast? = some s) : s.stop = j := by
  induction ss generalizing i with
  | nil => cases hs
  | cons u us ih =>
      cases us with
      | nil =>
          obtain rfl := Option.some.inj hs
          exact h.2.2
      | cons v vs => exact ih h.2.2 (by rwa [List.getLast?_cons_cons] at hs)

/-- The smallest range around some in a row goes from the start of the first one to the end of the last
one. -/
theorem around_eq (h : Tile i ss j) (hs : ss ≠ []) (o : Span) : Entry.around o ss = ⟨i, j⟩ := by
  cases ss with
  | nil => exact absurd rfl hs
  | cons s ss =>
      obtain ⟨l, hl⟩ : ∃ l, (s :: ss).getLast? = some l := ⟨_, List.getLast?_cons⟩
      obtain ⟨hls, hse, hle⟩ := h.bounds l (List.mem_of_getLast? hl)
      have hlj := h.getLast hl
      have hsj := (h.bounds s List.mem_cons_self).2.2
      rw [Entry.around, List.head?_cons, hl]
      simp only [Span.join, Span.mk.injEq]
      have := h.1
      omega

end Span.Tile

/-! ## Tokens -/

namespace Placed

/-- The tokens behind one that belong to it: the layout up to the first line break, without
directives. -/
def trailing : List Token → List Token
  | [] => []
  | t :: ts =>
    if !t.kind.isTrivia || t.kind == .directive then []
    else if t.kind == .newline then [t]
    else t :: trailing ts

theorem trailing_prefix (ts : List Token) : trailing ts <+: ts := by
  fun_induction trailing ts with
  | case1 => exact List.prefix_refl _
  | case2 => exact List.nil_prefix
  | case3 t ts => exact List.cons_prefix_cons.mpr ⟨rfl, List.nil_prefix⟩
  | case4 t ts _ _ ih => exact List.cons_prefix_cons.mpr ⟨rfl, ih⟩

theorem layout_trailing (ts : List Token) :
    ∀ t ∈ trailing ts, t.kind.isTrivia ∧ t.kind ≠ .directive := by
  fun_induction trailing ts with
  | case1 => nofun
  | case2 => nofun
  | case3 t ts hd _ =>
      intro u hu
      rw [List.mem_singleton.mp hu]
      simpa using hd
  | case4 t ts hd _ ih =>
      intro u hu
      rcases List.mem_cons.mp hu with rfl | hu
      · simpa using hd
      · exact ih u hu

/-- Only the last token of the layout behind a token can be a line break. -/
theorem newline_trailing (ts : List Token) :
    ∀ t ∈ (trailing ts).dropLast, t.kind ≠ .newline := by
  fun_induction trailing ts with
  | case1 => nofun
  | case2 => nofun
  | case3 => nofun
  | case4 t ts _ hn ih =>
      cases hts : trailing ts with
      | nil => nofun
      | cons u us =>
          rw [hts] at ih
          intro v hv
          rw [List.dropLast_cons_cons] at hv
          rcases List.mem_cons.mp hv with rfl | hv
          · simpa using hn
          · exact ih v hv

theorem tile_trailing (n : Nat) (ls : List Lexeme) :
    Span.Tile n ((trailing (Lexeme.place n ls)).map (·.span))
      (trailingStop n (Lexeme.place n ls)) := by
  induction ls generalizing n with
  | nil => rfl
  | cons l ls ih =>
      rw [Lexeme.place, trailing, trailingStop]
      split
      · rfl
      · split
        · exact ⟨rfl, Nat.le_add_right _ _, rfl⟩
        · exact ⟨rfl, Nat.le_add_right _ _, ih _⟩

/-- The ranges with layout of the significant tokens among some. -/
def fulls (ps : List Placed) : List Span := (ps.filter fun p => !p.isLayout).map (·.full)

theorem fulls_of_dropWhile {ps qs : List Placed} {q : Placed}
    (h : ps.dropWhile (·.isLayout) = q :: qs) : fulls ps = q.full :: fulls qs := by
  rw [fulls, filter_of_dropWhile h, List.map_cons, fulls]

/-- What follows in a row, follows from a later place on as well. -/
theorem tile_suffix {ps qs : List Placed} {i k : Nat} (h : Span.Tile i (fulls ps) k)
    (hs : qs <:+ ps) : ∃ j, Span.Tile j (fulls qs) k := by
  obtain ⟨rs, rfl⟩ := hs
  induction rs generalizing i with
  | nil => exact ⟨i, h⟩
  | cons r rs ih =>
      by_cases hr : r.isLayout
      · exact ih (i := i) (by simpa [fulls, hr] using h)
      · have h : Span.Tile i (r.full :: fulls (rs ++ qs)) k := by simpa [fulls, hr] using h
        exact ih h.2.2

theorem tile_ofTokens {text : Text} {leading : Nat} {ts : List Token}
    (h : Ordered text (ofTokens leading ts)) :
    ∃ k, Span.Tile leading (fulls (ofTokens leading ts)) k := by
  induction ts generalizing leading with
  | nil => exact ⟨leading, rfl⟩
  | cons t ts ih =>
      rw [ofTokens] at h ⊢
      split at h
      · rename_i ht
        obtain ⟨k, hk⟩ := ih h.2
        exact ⟨k, by simpa [fulls, isLayout, ht] using hk⟩
      · rename_i ht
        have ht : t.kind.isTrivia = false := by simpa using ht
        obtain ⟨k, hk⟩ := ih h.2
        obtain ⟨h₁, h₂, _⟩ := h.1 ht
        have hle := Nat.le_trans h₁ (Nat.le_trans (Nat.le_add_right _ _) h₂)
        refine ⟨k, ?_⟩
        simp only [ht, Bool.false_eq_true, ↓reduceIte]
        rw [fulls_of_dropWhile (List.dropWhile_cons_of_neg (by simp [isLayout, ht]))]
        exact ⟨rfl, hle, hk⟩

/-- What stands behind a placed token is the layout that belongs to it, as far as its range with layout
goes. -/
theorem exists_trailing {leading n : Nat} {ls : List Lexeme} {p : Placed}
    (hp : p ∈ ofTokens leading (Lexeme.place n ls)) (hl : p.isLayout = false) :
    ∃ ts, p.token :: ts <:+: Lexeme.place n ls ∧
      Span.Tile p.token.stop (ts.map (·.span)) p.full.stop ∧
      (∀ t ∈ ts, t.kind.isTrivia ∧ t.kind ≠ .directive) ∧
      ∀ t ∈ ts.dropLast, t.kind ≠ .newline := by
  induction ls generalizing n leading with
  | nil => cases hp
  | cons l ls ih =>
      rw [Lexeme.place] at hp ⊢
      rw [ofTokens] at hp
      have hx : Lexeme.place (n + l.text.size) ls <:+: ⟨l, n⟩ :: Lexeme.place (n + l.text.size) ls :=
        (List.suffix_cons _ _).isInfix
      split at hp
      · rename_i hk
        rcases List.mem_cons.mp hp with rfl | hp
        · exact absurd (hl.symm.trans hk) Bool.false_ne_true
        · obtain ⟨ts, hi, h⟩ := ih hp
          exact ⟨ts, hi.trans hx, h⟩
      · rcases List.mem_cons.mp hp with rfl | hp
        · exact ⟨_, (List.cons_prefix_cons.mpr ⟨rfl, trailing_prefix _⟩).isInfix,
            tile_trailing _ _, layout_trailing _, newline_trailing _⟩
        · obtain ⟨ts, hi, h⟩ := ih hp
          exact ⟨ts, hi.trans hx, h⟩

end Placed

/-! ## Trees -/

namespace Laid

variable {text : Text} {es : Array Entry} {parent : Option Nat} {ps qs : List Placed}
  {id stop : Nat} {roots : List Nat} {ts : List Tree}

theorem entries_ne_nil (h : Laid text es parent ps id roots ts qs stop) (ht : ts ≠ []) :
    roots.filterMap (es[·]?) ≠ [] := by
  have hr : roots ≠ [] := by
    rintro rfl
    exact ht (List.eq_nil_of_length_eq_zero h.length_roots.symm)
  obtain ⟨i, hi⟩ := List.exists_mem_of_ne_nil _ hr
  obtain ⟨e, he, _⟩ := h.roots_parent i hi
  exact List.ne_nil_of_mem (List.mem_filterMap.mpr ⟨i, hi, he⟩)

/-- Trees that follow the rules tile what the tokens they are made of do. -/
theorem tile_roots (h : Laid text es parent ps id roots ts qs stop) (hh : EverywhereAll Headed ts)
    (hn : EverywhereAll Rule ts) {i k : Nat} (hp : Span.Tile i (Placed.fulls ps) k) :
    ∃ j, Span.Tile i ((roots.filterMap (es[·]?)).map (·.full)) j ∧
      Span.Tile j (Placed.fulls qs) k := by
  induction h generalizing i with
  | nil => exact ⟨i, rfl, hp⟩
  | leaf hq _ he _ ih =>
      rw [Placed.fulls_of_dropWhile hq] at hp
      obtain ⟨j, hr, hj⟩ := ih hh.2 hn.2 hp.2.2
      rw [List.filterMap_cons_some he]
      exact ⟨j, ⟨hp.1, hp.2.1, hr⟩, hj⟩
  | @node _ _ _ below _ _ us _ _ _ _ _ h he _ ih ih' =>
      obtain ⟨m, hb, hm⟩ := ih hh.1.2 hn.1.2 hp
      obtain ⟨j, hr, hj⟩ := ih' hh.2 hn.2 hm
      have hne : below.filterMap (es[·]?) ≠ [] :=
        h.entries_ne_nil (ne_nil_of_rule hh.1.1 hn.1.1)
      rw [List.filterMap_cons_some he, List.map_cons, Entry.closed]
      simp only [hb.around_eq (by simpa using hne)]
      exact ⟨j, ⟨rfl, hb.le, hr⟩, hj⟩

end Laid

/-! ## Nodes -/

namespace Node

/-- The tokens behind a leaf in its range with layout: they fill it, they are layout other than
directives, and none but the last of them is a line break. -/
structure Trailing (l : Node) (ts : List Token) : Prop where
  behind : ∃ t : Token, t :: ts <:+: l.tree.text.tokens ∧ t.kind = l.kind ∧ t.span = l.span
  tile : Span.Tile l.stop (ts.map (·.span)) l.full.stop
  layout : ∀ t ∈ ts, t.kind.isTrivia ∧ t.kind ≠ .directive
  newline : ∀ t ∈ ts.dropLast, t.kind ≠ .newline

end Node

namespace SyntaxTree

variable {text : Text} {n l : Node}

/-- The leaves of a text in order. -/
theorem map_isLeaf {α : Type} (g : Kind → Span → Span → α) (text : Text) :
    ((parse text).nodes.filter (·.isLeaf)).map (fun l => g l.kind l.span l.full) =
      ((Placed.ofTokens 0 text.tokens).filter fun p => !p.isLayout).map fun p =>
        g p.token.kind p.token.span p.full := by
  rw [← map_leaves, ← map_entry_nodes, List.filter_map, List.map_map]
  rfl

theorem exists_placed (hl : l ∈ (parse text).nodes) (hk : l.isLeaf) :
    ∃ p ∈ Placed.ofTokens 0 text.tokens, p.isLayout = false ∧
      (p.token.kind : Kind) = l.kind ∧ p.token.span = l.span ∧ p.full = l.full := by
  have hm := List.mem_map_of_mem (f := fun l : Node => (l.kind, l.span, l.full))
    (List.mem_filter.mpr ⟨hl, hk⟩)
  rw [map_isLeaf fun k s f => (k, s, f)] at hm
  obtain ⟨p, hp, he⟩ := List.mem_map.mp hm
  obtain ⟨hp, hpl⟩ := List.mem_filter.mp hp
  simp only [Prod.mk.injEq] at he
  exact ⟨p, hp, by simpa using hpl, he⟩

theorem exists_trailing (hl : l ∈ (parse text).nodes) (hk : l.isLeaf) :
    ∃ ts, l.Trailing ts := by
  obtain ⟨p, hp, hpl, hk, hs, hf⟩ := exists_placed hl hk
  obtain ⟨ts, hi, ht, hd, hn⟩ := Placed.exists_trailing hp hpl
  have hstop : p.token.stop = l.stop := congrArg Span.stop hs
  rw [hstop, hf] at ht
  have htt := tree_text hl
  exact ⟨ts, ⟨p.token, htt ▸ hi, hk, hs⟩, ht, hd, hn⟩

theorem labels_isLeaf (text : Text) :
    ((parse text).nodes.filter (·.isLeaf)).map (fun l => (l.kind, l.span)) =
      text.significant.map (·.label) :=
  (map_isLeaf (fun k s _ => (k, s)) text).trans (Placed.labels_ofTokens 0 text.tokens)

theorem exists_leaf_of_token {t : Token} (ht : t ∈ text.significant) :
    ∃ l ∈ (parse text).nodes, l.isLeaf ∧ l.kind = t.kind ∧ l.span = t.span := by
  have hm := List.mem_map_of_mem (f := Token.label) ht
  rw [← labels_isLeaf] at hm
  obtain ⟨l, hl, he⟩ := List.mem_map.mp hm
  obtain ⟨hl, hk⟩ := List.mem_filter.mp hl
  exact ⟨l, hl, hk, Prod.mk.inj he⟩

/-- The ranges with layout of the leaves of a text tile it up to some layout. -/
theorem tile_leaves (text : Text) :
    ∃ stop, Span.Tile 0 (((parse text).nodes.filter (·.isLeaf)).map (·.full)) stop ∧
      ∀ t ∈ text.tokens, stop < t.stop → t.kind.isTrivia := by
  obtain ⟨stop, hs⟩ := Placed.tile_ofTokens (Placed.ordered_tokens text)
  have hm : ((parse text).nodes.filter (·.isLeaf)).map (·.full) =
      Placed.fulls (Placed.ofTokens 0 text.tokens) := map_isLeaf (fun _ _ f => f) text
  refine ⟨stop, hm ▸ hs, fun t ht hlt => ?_⟩
  by_contra hk
  have ht : t ∈ text.significant := List.mem_filter.mpr ⟨ht, by simpa [Lexeme.isSignificant] using hk⟩
  obtain ⟨l, hl, hlk, _, hls⟩ := exists_leaf_of_token ht
  have hle := stop_le_full hl
  have hlf := (hs.bounds l.full (hm ▸ List.mem_map_of_mem (List.mem_filter.mpr ⟨hl, hlk⟩))).2.2
  have hts : l.stop = t.stop := congrArg Span.stop hls
  omega

/-- If nothing is wrong with a text, the ranges with layout of the children of a node tile its own. -/
theorem tile_children (h : (parse text).ok) (hn : n ∈ (parse text).nodes) (hi : n.id ≠ 0)
    (hl : ¬ n.isLeaf) : Span.Tile n.full.start (n.children.map (·.full)) n.full.stop := by
  obtain ⟨ht, he⟩ := of_mem_nodes hn
  obtain ⟨roots, rest, hlaid, _⟩ := exists_laid text
  obtain ⟨_, ps, t, qs, hx, hts, hj⟩ := hlaid.single
    ((everywhereAll_and _).mpr ⟨headed_forest text, (rule_forest h).2⟩) he (by omega)
    (Array.getElem?_eq_some_iff.mp he).1
  obtain ⟨hh, hr⟩ := (everywhere_and t).mp hts
  obtain ⟨_, hp⟩ := Placed.tile_ofTokens (Placed.ordered_tokens text)
  obtain ⟨i, hp⟩ := Placed.tile_suffix hp hx
  have hc : n.children.map (·.full) =
      (n.entry.children.filterMap ((parse text).entries[·]?)).map (·.full) := by
    rw [← ht, ← Node.map_entry_children, List.map_map]
    rfl
  rw [hc, Node.full]
  cases hj with
  | leaf _ _ he' =>
      rw [Node.isLeaf, Option.some.inj (he.symm.trans he')] at hl
      exact absurd rfl hl
  | node hb he' =>
      obtain ⟨_, hb', _⟩ := hb.tile_roots hh.2 hr.2 hp
      have hne := hb.entries_ne_nil (Laid.ne_nil_of_rule hh.1 hr.1)
      rw [Option.some.inj (he.symm.trans he')]
      simp only [Entry.closed, hb'.around_eq (by simpa using hne)]
      exact hb'

/-- The ranges with layout of the leaves, which are the significant tokens, tile a text up to the layout
at its end. Each of them is around its token and goes on behind it up to a directive or the first line
break. If nothing is wrong with the text, the ranges with layout of the children of a composite node
other than the whole file tile that of the node. -/
theorem full_ranges_tile (text : Text) :
    ((parse text).nodes.filter (·.isLeaf)).map (·.span) = text.significant.map (·.span) ∧
      (∃ stop, Span.Tile 0 (((parse text).nodes.filter (·.isLeaf)).map (·.full)) stop ∧
        ∀ t ∈ text.tokens, stop < t.stop → t.kind.isTrivia) ∧
      (∀ l ∈ (parse text).nodes, l.isLeaf → l.full.covers l.span ∧ ∃ ts, l.Trailing ts) ∧
      ((parse text).ok → ∀ n ∈ (parse text).nodes, n.id ≠ 0 → ¬ n.isLeaf →
        Span.Tile n.full.start (n.children.map (·.full)) n.full.stop) := by
  refine ⟨?_, tile_leaves text, fun l hl hk => ⟨(ranged hl).full_covers, exists_trailing hl hk⟩,
    fun h n hn hi hl => tile_children h hn hi hl⟩
  simpa [Token.label, Function.comp_def] using congrArg (List.map Prod.snd) (labels_isLeaf text)

/-- A file with a comment, an empty line and a directive between its tokens. -/
theorem full_ranges_tile_codeunit :
    (parse "codeunit 1 A // a\n\n\x7b\n#pragma b\n\x7d\n".toList).ok ∧
      ∀ n ∈ (parse "codeunit 1 A // a\n\n\x7b\n#pragma b\n\x7d\n".toList).nodes, n.id ≠ 0 →
        ¬ n.isLeaf → Span.Tile n.full.start (n.children.map (·.full)) n.full.stop := by
  have hl : (Lexeme.lex "codeunit 1 A // a\n\n\x7b\n#pragma b\n\x7d\n".toList).filter
      (·.isSignificant) = [⟨.ident, "codeunit".toList⟩, ⟨.intLiteral, ['1']⟩, ⟨.ident, ['A']⟩,
        ⟨.lBrace, ['\x7b']⟩, ⟨.rBrace, ['\x7d']⟩] := by decide +kernel
  have h : (parse "codeunit 1 A // a\n\n\x7b\n#pragma b\n\x7d\n".toList).ok := by
    rw [ok_iff, Text.lexemes_significant, hl]
    decide +kernel
  exact ⟨h, (full_ranges_tile _).2.2.2 h⟩

end SyntaxTree

end AlRefactor
