import AlRefactor.Proofs.Grammar.Hereditary
import AlRefactor.Proofs.Syntax.Standing
import AlRefactor.Proofs.Token.Seams

/-!
# To which conditional statement an `else` belongs

A conditional statement takes any `else` that stands behind its branch, also behind a semicolon, since
the branch has taken the semicolon. So behind one without an `else` of its own there never stands one,
and an `else` always belongs to the last conditional statement in front of it that can take it.
-/

namespace AlRefactor

open AlRefactor.Tree

namespace Tree

/-- No `else` stands right behind a conditional statement among some trees that has none of its own, if
what is left stands behind the trees. -/
def Exhausted (ts : List Tree) (rest : List Lexeme) : Prop :=
  ∀ (o : Hole) (us : List Tree), ts = o.plug (.node NodeKind.ifStatement us) →
    (∀ u ∈ us, u.kind ≠ NodeKind.elseClause) → firstKind (o.behind ++ rest) ≠ .kwElse

namespace Exhausted

variable {ts us : List Tree} {rest : List Lexeme} {k : Kind}

theorem nil : Exhausted [] rest := fun _ _ h => absurd h.symm Hole.split_nil

theorem leaf (l : Lexeme) : Exhausted [.leaf l] rest := fun _ _ h => by
  rcases Hole.split_singleton h.symm with ⟨_, h⟩ | ⟨_, _, _, h⟩ <;> cases h

theorem append (h : Exhausted ts (leavesOf us ++ rest)) (h' : Exhausted us rest) :
    Exhausted (ts ++ us) rest := by
  intro o vs ho hv
  -- The statement stands among the first trees, with the leaves of the second ones behind it, or among
  -- the second ones.
  rcases Hole.split_append ho.symm with ⟨o', rfl, hts⟩ | ⟨o', rfl, hus⟩
  · have := h o' vs hts hv
    cases o' <;> simpa [Hole.widen, Hole.behind, leavesOf_append] using this
  · have := h' o' vs hus hv
    cases o' <;> simpa [Hole.widen, Hole.behind] using this

theorem node (h : Exhausted ts rest) (hk : k = NodeKind.ifStatement →
    (∀ t ∈ ts, t.kind ≠ NodeKind.elseClause) → firstKind rest ≠ .kwElse) :
    Exhausted [.node k ts] rest := by
  intro o us ho hu
  rcases Hole.split_singleton ho.symm with ⟨rfl, he⟩ | ⟨j, o', rfl, he⟩
  · cases he
    exact hk rfl hu
  · cases he
    simpa [Hole.behind, leavesOf] using h o' us rfl hu

end Exhausted

end Tree

/-! ## The grammar -/

namespace Grammar

open Production

/-- What is read without a problem leaves no `else` behind a conditional statement without one. -/
def Exhausts (p : Production) : Prop :=
  ∀ c, (p.read c).problems = [] → Exhausted (p.read c).made (p.read c).rest.ahead

theorem exhausts_append {p q : Production} (hp : Exhausts p) (hq : Exhausts q) : Exhausts (p ++ q) := by
  intro c h
  obtain ⟨h, h'⟩ := List.append_eq_nil_iff.mp h
  have hl := read_leaves q (p.read c).rest
  exact .append (hl ▸ hp c h) (hq _ h')

theorem exhausts_take : Exhausts take := by
  rintro ⟨n, _ | ⟨l, ls⟩⟩ _
  · exact .nil
  · exact .leaf l

theorem exhausts_whileAt {test : Cursor → Bool} {p : Production} (hp : Exhausts p) :
    Exhausts (whileAt test p) := by
  intro c h
  refine (whileAt_induction (I := fun c ts d => leavesOf ts ++ d.ahead = c.ahead ∧ Exhausted ts d.ahead)
    (fun c => ⟨rfl, .nil⟩) (fun c ts d _ hn ⟨hl, hs⟩ => ⟨?_, .append ?_ hs⟩) c h).2
  · rw [leavesOf_append, List.append_assoc, hl, read_leaves]
  · rw [hl]
    exact hp c hn

theorem exhausts_mark {p q : Production} {kind : Cursor → Kind}
    (hk : ∀ d, kind d ≠ NodeKind.ifStatement) (hp : Exhausts p) (hq : Exhausts q) :
    Exhausts (mark p kind q) :=
  fun c h => .node (exhausts_append hp hq c h) fun hi => absurd hi (hk _)

theorem exhausts_grow {p q : Production} {kind : Cursor → Option NodeKind}
    (hk : ∀ c k, kind c = some k → .node k ∉ ownBodies) (hp : Exhausts p) (hq : Exhausts q) :
    Exhausts (grow p kind q) := by
  intro c h
  refine grow_induction (I := fun a => Exhausted a.made a.rest.ahead) (fun a k ha hak hn => ?_) h (hp c)
  refine .node (.append ?_ (hq _ hn)) fun hi => absurd (hi ▸ hk _ k hak) (by decide)
  rwa [read_leaves]

theorem hereditary_exhausts : Hereditary Exhausts where
  skip _ _ := .nil
  take := exhausts_take
  report _ _ h := absurd h (List.cons_ne_nil _ _)
  append := exhausts_append
  look h c := h c c
  whileAt := exhausts_whileAt
  mark hk := exhausts_mark fun d hd => hk d (hd ▸ by decide)

theorem exhausts_expression : Exhausts expression :=
  hereditary_exhausts.expression exhausts_grow

/-- Where no `else` has been taken, none stands next. -/
theorem rest_elseClause {p : Production} {c : Cursor}
    (h : ∀ t ∈ ((choose (·.isAt .kwElse) (node NodeKind.elseClause p) skip).read c).made,
      t.kind ≠ NodeKind.elseClause) :
    ((choose (·.isAt .kwElse) (node NodeKind.elseClause p) skip).read c).rest.kind ≠ .kwElse := by
  rw [read_choose] at h ⊢
  split
  · rename_i he
    rw [if_pos he, read_node] at h
    exact absurd rfl (h _ (List.mem_singleton_self _))
  · rename_i he
    exact fun hk => he (beq_iff_eq.mpr hk)

theorem exhausts_conditional {p q : Production} (hp : Exhausts p) (hq : Exhausts q) :
    Exhausts (node NodeKind.ifStatement
      (p ++ choose (·.isAt .kwElse) (node NodeKind.elseClause q) skip)) := by
  have hk := hereditary_exhausts
  have he : Exhausts (choose (·.isAt .kwElse) (node NodeKind.elseClause q) skip) :=
    hk.choose (hk.node (by decide) hq) hk.skip
  intro c h
  rw [read_node] at h ⊢
  refine .node (exhausts_append hp he c h) fun _ hn => ?_
  have hr := rest_elseClause fun t ht => hn t (List.mem_append_right _ ht)
  exact Cursor.kind_mk _ _ ▸ hr

theorem exhausts_ifStatement {p : Production} (hp : Exhausts p) : Exhausts (ifStatement p) := by
  have hk := hereditary_exhausts
  exact exhausts_conditional (hk.ifParts exhausts_expression hp) (hk.append hk.take (hk.controlled hp))

theorem exhausts_declarations : Exhausts declarations := by
  have hk := hereditary_exhausts
  have hn {p : Production} {k : Kind} (hi : k ≠ NodeKind.ifStatement) (hp : Exhausts p) :
      Exhausts (.node k p) := exhausts_mark (fun _ => hi) hp hk.skip
  have hw := hk.expressionWithoutIn exhausts_grow
  exact hk.declarations_of_node exhausts_expression (fun _ => exhausts_ifStatement)
    (fun _ hp => hn (by decide) (hk.loopParts exhausts_expression hw hp))
    fun hd hp => hn (by rintro rfl; exact absurd hd (by decide)) hp

end Grammar

/-! ## Nodes -/

namespace Node

open SyntaxTree

variable {text : Text} {n : Node} {k m : Nat}

/-- The tokens up to the last one of a node start in front of its end. -/
theorem Spans.start_lt_stop (h : n.Spans text k m) :
    ∀ q ∈ text.significant.take (k + m), q.start < n.stop := by
  obtain ⟨p, hp, hps⟩ := h.stop
  obtain ⟨j, hj⟩ : ∃ j, k + m = j + 1 := ⟨k + m - 1, by have := h.pos; omega⟩
  rw [hj, Nat.add_sub_cancel] at hp
  have hlast : p.start < p.stop := Text.start_lt_stop (List.mem_of_getElem? hp)
  have hapart : (text.significant.take (j + 1)).Pairwise fun p q => p.stop ≤ q.start :=
    ((Lexeme.place_pairwise 0 (Lexeme.lex text)).1.filter _).sublist (List.take_sublist _ _)
  have htake : text.significant.take (j + 1) = text.significant.take j ++ [p] := by
    obtain ⟨hlt, rfl⟩ := List.getElem?_eq_some_iff.mp hp
    exact List.take_succ_eq_append_getElem hlt
  rw [htake] at hapart
  rw [hj, htake]
  intro q hq
  rcases List.mem_append.mp hq with hm | hm
  · have := Text.start_lt_stop (List.mem_of_mem_take hm)
    have := (List.pairwise_append.mp hapart).2.2 q hm p (List.mem_singleton_self p)
    omega
  · obtain rfl := List.mem_singleton.mp hm
    omega

/-- The token behind a node is the first one that starts behind the node. -/
theorem Spans.find?_behind (h : n.Spans text k m) (hn : n ∈ (parse text).nodes) :
    text.significant.find? (n.stop ≤ ·.start) = text.significant[k + m]? := by
  have hfront : (text.significant.take (k + m)).find? (n.stop ≤ ·.start) = none :=
    List.find?_eq_none.mpr fun q hq => by simpa using h.start_lt_stop q hq
  have hback : (text.significant.drop (k + m)).find? (n.stop ≤ ·.start) =
      (text.significant.drop (k + m)).head? := by
    cases hd : text.significant.drop (k + m) with
    | nil => rfl
    | cons q qs =>
        have hq : text.significant[k + m]? = some q := by rw [← List.head?_drop, hd]; rfl
        have hle := Nat.le_trans (stop_le_full hn) (h.full q hq)
        rw [List.find?_cons_of_pos (by simpa using hle)]
        rfl
  calc text.significant.find? (n.stop ≤ ·.start)
      = (text.significant.take (k + m) ++ text.significant.drop (k + m)).find? (n.stop ≤ ·.start) := by
        rw [List.take_append_drop]
    _ = (text.significant.drop (k + m)).head? := by
        rw [List.find?_append, hfront, Option.none_or, hback]
    _ = text.significant[k + m]? := List.head?_drop

end Node

namespace SyntaxTree

variable {text : Text} {i : Node} {o : Hole} {t : Tree}

/-- The token behind those of a tree of a text is the first lexeme behind its place. -/
theorem next_of_plug (hf : forest text = o.plug t) :
    text.significant[o.before.length + t.leaves.length]?.map (·.toLexeme) = o.behind.head? := by
  have hl := leavesOf_forest text
  rw [hf, Hole.leaves_plug, ← List.append_assoc] at hl
  rw [← List.getElem?_map, ← hl, ← List.length_append, List.getElem?_append_right (Nat.le_refl _),
    Nat.sub_self, List.head?_eq_getElem?]

/-- If nothing is wrong with a text, the token behind a conditional statement that has no `else` is no
`else` either, whether or not a semicolon ends the statement. -/
theorem no_else_behind_conditional (h : (parse text).ok) (hi : i ∈ (parse text).nodes)
    (hk : i.kind = NodeKind.ifStatement) (he : i.child? NodeKind.elseClause = none) :
    ∀ t ∈ text.significant.find? (i.stop ≤ ·.start), t.kind ≠ .kwElse := by
  obtain ⟨o, t, hf, -, hs⟩ := exists_plug h hi fun h0 => by cases hk.symm.trans (kind_root hi h0)
  obtain ⟨us, rfl⟩ : ∃ us, t = .node NodeKind.ifStatement us := by
    cases t with
    | leaf l => cases hk.symm.trans hs.kind
    | node k us => exact ⟨us, by rw [← hk, hs.kind]; rfl⟩
  have hx := Grammar.exhausts_declarations _ ((ok_iff text).mp h)
  rw [Grammar.rest_declarations] at hx
  have hu : ∀ u ∈ us, u.kind ≠ NodeKind.elseClause := fun u hu hk => by
    have hm : u.kind ∈ i.children.map (·.kind) := hs.children.kinds ▸ List.mem_map_of_mem hu
    obtain ⟨c, hc, hck⟩ := List.mem_map.mp hm
    exact List.find?_eq_none.mp he c hc (beq_iff_eq.mpr (hck.trans hk))
  have hbehind : firstKind (o.behind ++ []) ≠ .kwElse := hx o us hf hu
  intro p hp
  rw [hs.spans.find?_behind hi] at hp
  rwa [List.append_nil, firstKind, ← next_of_plug hf, Option.mem_def.mp hp] at hbehind

/-- The `else` of a case statement whose last line is a conditional statement with a semicolon goes to the
conditional statement. -/
theorem else_behind_semicolon :
    let text : Text :=
      "codeunit 1 A \x7b procedure P() begin case x of v: if c then s; else t; end; end; \x7d".toList
    (parse text).ok ∧ (∀ n ∈ (parse text).nodes, n.kind ≠ NodeKind.caseElse) ∧
      ∃ n ∈ (parse text).nodes, n.kind = NodeKind.elseClause ∧
        (text.significant.filter (·.stop ≤ n.start)).getLast?.map (·.kind) = some .semicolon := by
  decide +kernel

end SyntaxTree

end AlRefactor
