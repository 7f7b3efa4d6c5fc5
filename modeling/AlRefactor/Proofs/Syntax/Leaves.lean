import AlRefactor.Proofs.Grammar.Nodes
import AlRefactor.Proofs.Syntax.Laid
import AlRefactor.Proofs.Token.Lexing

/-!
# The leaves of a text are its tokens

The nodes of the kind of a token that have no children are made of the significant tokens of the
text, one of each, and they stand in their order. Layout and the end of the text make no node.
-/

namespace AlRefactor

open AlRefactor.Tree

/-- A node made of a token. Unreadable members have the kind of a token too, but also children. -/
def Entry.isLeaf (e : Entry) : Bool := e.kind.isToken && e.children.isEmpty

def Node.isLeaf (n : Node) : Bool := n.entry.isLeaf

/-! ## Nodes by their numbers -/

/-- The nodes from one number of an arena to another. -/
def between (es : Array Entry) (i j : Nat) : List Entry := (es.toList.drop i).take (j - i)

theorem between_append (es : Array Entry) {i j k : Nat} (hij : i ≤ j) (hjk : j ≤ k) :
    between es i j ++ between es j k = between es i k := by
  have hj : es.toList.drop j = (es.toList.drop i).drop (j - i) := by
    rw [List.drop_drop, Nat.add_sub_cancel' hij]
  rw [between, between, between, hj, ← List.take_add]
  congr 1
  omega

theorem between_cons {es : Array Entry} {i j : Nat} {e : Entry} (he : es[i]? = some e)
    (h : i < j) : between es i j = e :: between es (i + 1) j := by
  obtain ⟨hi, rfl⟩ := Array.getElem?_eq_some_iff.mp he
  obtain ⟨n, rfl⟩ := Nat.exists_eq_add_of_lt h
  have hn : i + n + 1 - i = n + 1 := by omega
  have hm : i + n + 1 - (i + 1) = n := by omega
  rw [between, between, hn, hm, List.drop_eq_getElem_cons hi, List.take_succ_cons,
    Array.getElem_toList]

theorem between_size (es : Array Entry) : between es 0 es.size = es.toList := by
  rw [between, List.drop_zero, Nat.sub_zero]
  exact List.take_of_length_le (Nat.le_refl _)

theorem filterMap_range_getElem? {α : Type} (l : List α) :
    (List.range l.length).filterMap (l[·]?) = l := by
  induction l with
  | nil => rfl
  | cons a l ih =>
      rw [List.length_cons, List.range_succ_eq_map, List.filterMap_cons_some List.getElem?_cons_zero,
        List.filterMap_map]
      exact congrArg (a :: ·) ih

theorem SyntaxTree.map_entry_nodes (t : SyntaxTree) : t.nodes.map (·.entry) = t.entries.toList := by
  rw [nodes, List.map_filterMap, ← filterMap_range_getElem? t.entries.toList]
  refine List.filterMap_congr fun i _ => ?_
  rw [get?, Array.getElem?_toList]
  split
  · rename_i h; simp [Node.entry, h]
  · rename_i h; simp [h]

theorem SyntaxTree.of_mem_nodes {t : SyntaxTree} {n : Node} (h : n ∈ t.nodes) :
    n.tree = t ∧ t.entries[n.id]? = some n.entry := by
  obtain ⟨i, _, hi⟩ := List.mem_filterMap.mp h
  rw [get?] at hi
  split at hi
  · cases hi
    exact ⟨rfl, Array.getElem?_eq_getElem _⟩
  · cases hi

theorem SyntaxTree.tree_text {text : Text} {n : Node} (h : n ∈ (parse text).nodes) : n.tree.text = text := by
  rw [(of_mem_nodes h).1]
  rfl

/-! ## Leaves of laid trees -/

/-- The kind and the range of a leaf. -/
def Entry.label (e : Entry) : Kind × Span := (e.kind, e.span)

def Token.label (t : Token) : Kind × Span := (t.kind, t.span)

/-- The kinds and ranges of the tokens that are not layout. -/
def Placed.labels (ps : List Placed) : List (Kind × Span) :=
  (ps.filter fun p => !p.isLayout).map (·.token.label)

theorem Placed.filter_of_dropWhile {ps qs : List Placed} {q : Placed}
    (h : ps.dropWhile (·.isLayout) = q :: qs) :
    (ps.filter fun p => !p.isLayout) = q :: qs.filter fun p => !p.isLayout := by
  induction ps with
  | nil => cases h
  | cons p ps ih =>
      rw [List.dropWhile_cons] at h
      split at h
      · rename_i hp
        simpa [hp] using ih h
      · rename_i hp
        cases h
        simp [hp]

namespace Laid

variable {text : Text} {es : Array Entry} {parent : Option Nat} {ps qs : List Placed}
  {id stop : Nat} {roots : List Nat} {ts : List Tree}

theorem length_roots (h : Laid text es parent ps id roots ts qs stop) :
    roots.length = ts.length := by
  induction h with
  | nil => rfl
  | leaf _ _ _ _ ih | node _ _ _ _ ih => simp [ih]

/-- What is known of a node that trees have laid down: the trees below it lie behind it up to where
its subtree ends, and it is a leaf or one of the composite nodes of the trees. -/
theorem subtree {P : Kind → List Tree → Prop} (h : Laid text es parent ps id roots ts qs stop)
    (hP : EverywhereAll P ts) {j : Nat} {e : Entry} (he : es[j]? = some e) (hj : id ≤ j)
    (hs : j < stop) :
    ∃ ps us qs, Laid text es (some j) ps (j + 1) e.children us qs e.next ∧ e.next ≤ stop ∧
      ((∃ l : Lexeme, e.kind = l.kind ∧ e.children = []) ∨ P e.kind us) := by
  induction h with
  | nil => omega
  | @leaf _ _ i _ _ _ _ _ _ _ _ _ he' h ih =>
      have := h.le
      by_cases hn : j = i
      · subst hn
        obtain rfl := Option.some.inj (he'.symm.trans he)
        exact ⟨[], [], [], .nil, this, .inl ⟨_, rfl, rfl⟩⟩
      · exact ih hP.2 (by omega) hs
  | @node _ _ i _ _ _ _ _ _ _ mid _ h he' h' ih ih' =>
      have := h'.le
      by_cases hn : j = i
      · subst hn
        obtain rfl := Option.some.inj (he'.symm.trans he)
        exact ⟨_, _, _, h, this, .inr hP.1.1⟩
      · by_cases hm : j < mid
        · obtain ⟨ps, us, qs, h, hx, hk⟩ := ih hP.1.2 (by omega) hm
          exact ⟨ps, us, qs, h, by omega, hk⟩
        · exact ih' hP.2 (by omega) hs

/-- The leaves of trees are the significant tokens that they are made of, each with its kind and its
ranges. -/
theorem map_leaves {α : Type} (g : Kind → Span → Span → α)
    (h : Laid text es parent ps id roots ts qs stop) (hc : EverywhereAll Composite ts) :
    ((between es id stop).filter (·.isLeaf)).map (fun e => g e.kind e.span e.full) ++
        (qs.filter fun p => !p.isLayout).map (fun p => g p.token.kind p.token.span p.full) =
      (ps.filter fun p => !p.isLayout).map fun p => g p.token.kind p.token.span p.full := by
  induction h with
  | nil => simp [between]
  | @leaf _ _ _ _ l _ q _ _ _ hq hl he h ih =>
      have hs : between es _ _ = _ := between_cons he h.le
      rw [hs, Placed.filter_of_dropWhile hq, List.map_cons, ← ih hc.2]
      simp [Entry.isLeaf, Kind.isToken, ← hl]
  | @node _ _ id below _ k us _ _ _ mid stop h he h' ih ih' =>
      have hl := h.length_roots
      have hn : (k.isToken && below.isEmpty) = false := by
        refine Bool.eq_false_iff.mpr fun hk => ?_
        rw [Bool.and_eq_true, List.isEmpty_iff] at hk
        obtain rfl : below = [] := hk.2
        exact (hc.1.1 hk.1).2 (List.eq_nil_of_length_eq_zero hl.symm)
      rw [between_cons he (Nat.lt_of_lt_of_le h.le h'.le), ← between_append es h.le h'.le,
        List.filter_cons_of_neg (by simpa [Entry.isLeaf, Entry.closed] using hn), List.filter_append,
        List.map_append, List.append_assoc, ih' hc.2, ih hc.1.2]

theorem leaves (h : Laid text es parent ps id roots ts qs stop)
    (hc : EverywhereAll Composite ts) :
    ((between es id stop).filter (·.isLeaf)).map (·.label) ++ Placed.labels qs =
      Placed.labels ps :=
  h.map_leaves (fun k s _ => (k, s)) hc

theorem lexemes (h : Laid text es parent ps id roots ts qs stop) :
    leavesOf ts ++ (qs.filter fun p => !p.isLayout).map (·.token.toLexeme) =
      (ps.filter fun p => !p.isLayout).map (·.token.toLexeme) := by
  induction h with
  | nil => rfl
  | leaf hq hl _ _ ih =>
      rw [Placed.filter_of_dropWhile hq, List.map_cons, hl, ← ih]
      rfl
  | node _ _ _ ih ih' =>
      rw [← ih, ← ih', leavesOf, Tree.leaves, List.append_assoc]

end Laid

/-! ## The leaves of a text -/

theorem Placed.labels_ofTokens (leading : Nat) (ts : List Token) :
    labels (ofTokens leading ts) = (ts.filter (·.isSignificant)).map (·.label) := by
  induction ts generalizing leading with
  | nil => rfl
  | cons t ts ih =>
      simp only [labels, isLayout, Lexeme.isSignificant] at ih ⊢
      by_cases h : t.kind.isTrivia <;> simp [ofTokens, h, ih]

namespace SyntaxTree

/-- What is known of a node of a text: the trees below it lie behind it up to where its subtree
ends, and it is a leaf or has a property that all composite nodes of the text have. -/
theorem exists_subtree_of {text : Text} {P : Kind → List Tree → Prop}
    (hP : Everywhere P (.node NodeKind.compilationUnit (forest text))) {i : Nat} {e : Entry}
    (he : (parse text).entries[i]? = some e) :
    ∃ ps us qs, Laid text (parse text).entries (some i) ps (i + 1) e.children us qs e.next ∧
      e.next ≤ (parse text).entries.size ∧
      ((∃ l : Lexeme, e.kind = l.kind ∧ e.children = []) ∨ P e.kind us) := by
  obtain ⟨roots, rest, hl, hr, _⟩ := exists_laid text
  cases i with
  | zero =>
      obtain rfl := Option.some.inj (hr.symm.trans he)
      exact ⟨_, _, _, hl, Nat.le_refl _, .inr hP.1⟩
  | succ i =>
      obtain ⟨hi, _⟩ := Array.getElem?_eq_some_iff.mp he
      exact hl.subtree hP.2 he (by omega) hi

theorem exists_subtree {text : Text} {i : Nat} {e : Entry} (he : (parse text).entries[i]? = some e) :
    ∃ ps us qs, Laid text (parse text).entries (some i) ps (i + 1) e.children us qs e.next ∧
      e.next ≤ (parse text).entries.size ∧
      ((∃ l : Lexeme, e.kind = l.kind ∧ e.children = []) ∨ Composite e.kind us) :=
  exists_subtree_of ⟨composite_node _ _, Grammar.composite_declarations _⟩ he

/-- Unreadable members apart, a node of the kind of a token is a leaf. -/
theorem isLeaf_of_isToken {text : Text} {i : Nat} {e : Entry}
    (he : (parse text).entries[i]? = some e) (hk : e.kind.isToken) :
    e.isLeaf ∨ e.kind = TokenKind.error := by
  obtain ⟨_, _, _, _, _, ⟨_, _, hc⟩ | hc⟩ := exists_subtree he
  · exact .inl (by simp [Entry.isLeaf, hk, hc])
  · exact .inr (hc hk).1

/-- The leaves of a text are its significant tokens, each with its kind and its ranges. -/
theorem map_leaves {α : Type} (g : Kind → Span → Span → α) (text : Text) :
    ((parse text).entries.toList.filter (·.isLeaf)).map (fun e => g e.kind e.span e.full) =
      ((Placed.ofTokens 0 text.tokens).filter fun p => !p.isLayout).map fun p =>
        g p.token.kind p.token.span p.full := by
  obtain ⟨roots, rest, hl, hr, _⟩ := exists_laid text
  have h := hl.map_leaves g (Grammar.composite_declarations _)
  have hn : (rest.filter fun p => !p.isLayout) = [] := by
    have hx := hl.lexemes
    rw [leavesOf_forest, Placed.lexemes_ofTokens] at hx
    exact List.map_eq_nil_iff.mp (List.append_right_eq_self.mp hx)
  rw [hn, List.map_nil, List.append_nil] at h
  rw [← between_size, between_cons hr (parse text).entries_pos]
  exact h

theorem labels_leaves (text : Text) :
    ((parse text).entries.toList.filter (·.isLeaf)).map (·.label) =
      text.significant.map (·.label) :=
  (map_leaves (fun k s _ => (k, s)) text).trans (Placed.labels_ofTokens 0 text.tokens)

/-- A leaf stands for a token of the text, of its kind and at its place. -/
theorem exists_of_isLeaf {text : Text} {i : Nat} {e : Entry} (he : (parse text).entries[i]? = some e)
    (hl : e.isLeaf) : ∃ t ∈ text.significant, (t.kind : Kind) = e.kind ∧ t.span = e.span := by
  have hm := List.mem_filter.mpr ⟨Array.mem_toList_iff.mpr (Array.mem_of_getElem? he), hl⟩
  have hm := List.mem_map_of_mem (f := Entry.label) hm
  rw [labels_leaves] at hm
  obtain ⟨t, ht, hl⟩ := List.mem_map.mp hm
  exact ⟨t, ht, Prod.mk.inj hl⟩

/-- No node stands for layout or for the end of the text. -/
theorem kind_entry {text : Text} {i : Nat} {e : Entry} (he : (parse text).entries[i]? = some e) :
    e.kind ≠ TokenKind.eof ∧ e.kind.isTrivia = false := by
  by_cases hk : e.kind.isToken
  · rcases isLeaf_of_isToken he hk with hf | hk
    · obtain ⟨t, ht, hk, _⟩ := exists_of_isLeaf he hf
      obtain ⟨h, h'⟩ := Text.significant_kind ht
      rw [← hk]
      exact ⟨by simpa using h', h⟩
    · simp [hk, Kind.isTrivia, TokenKind.isTrivia]
  · cases h : e.kind with
    | token k => simp [h, Kind.isToken] at hk
    | node k => exact ⟨nofun, rfl⟩

/-- No token is lost, doubled, moved or made into something else: the leaves of a text are its
significant tokens, each with its kind at its place. -/
theorem leaves_parse (text : Text) :
    ((parse text).nodes.filter (·.isLeaf)).map (fun n => (n.kind, n.span)) =
        text.significant.map (fun t => ((t.kind : Kind), t.span)) ∧
      ∀ n ∈ (parse text).nodes, n.kind ≠ TokenKind.eof ∧ n.kind.isTrivia = false := by
  have hl := labels_leaves text
  rw [← map_entry_nodes, List.filter_map, List.map_map] at hl
  exact ⟨hl, fun n hn => kind_entry (of_mem_nodes hn).2⟩

variable {text : Text} {n : Node}

/-- A leaf among the nodes has the text of its token. -/
theorem exists_significant (hn : n ∈ (parse text).nodes) (hl : n.isLeaf) :
    ∃ t ∈ text.significant, (t.kind : Kind) = n.kind ∧ t.span = n.span ∧ t.text = n.text := by
  obtain ⟨hnt, he⟩ := of_mem_nodes hn
  obtain ⟨t, ht, hk, hs⟩ := exists_of_isLeaf he hl
  refine ⟨t, ht, hk, hs, ?_⟩
  rw [← Text.extract_token (List.mem_filter.mp ht).1, hs, Node.text, hnt]
  rfl

theorem isLeaf_of_kind (hn : n ∈ (parse text).nodes) {k : TokenKind} (hk : n.kind = k) (he : k ≠ .error) :
    n.isLeaf := by
  have ht : n.entry.kind.isToken := by
    rw [show n.entry.kind = k from hk]
    rfl
  exact (isLeaf_of_isToken (of_mem_nodes hn).2 ht).resolve_right fun hx => he (Kind.token.inj (hk.symm.trans hx))

/-- A token among the nodes is one of the text. -/
theorem mem_lex_of_token (hn : n ∈ (parse text).nodes) {k : TokenKind} (hk : n.kind = k) (he : k ≠ .error) :
    ⟨k, n.text⟩ ∈ Lexeme.lex text := by
  obtain ⟨t, ht, htk, _, htt⟩ := exists_significant hn (isLeaf_of_kind hn hk he)
  have hkind : t.kind = k := Kind.token.inj (htk.trans hk)
  rw [← htt, ← hkind, ← Lexeme.map_place 0 (Lexeme.lex text)]
  exact List.mem_map_of_mem (f := fun t : Token => t.toLexeme) (List.mem_filter.mp ht).1

end SyntaxTree

end AlRefactor
