import AlRefactor.Proofs.Syntax.Ranges

/-!
# Layout does not influence the tree

What the grammar makes of a text depends on its significant lexemes alone. So do the numbers, kinds,
relatives and names of its nodes, and the problems met; only the ranges tell how the text is laid out.
-/

namespace AlRefactor

open AlRefactor.Tree

/-! ## Names -/

namespace Placed

/-- The tokens have the texts that stand at their places. -/
def Spelled (text : Text) (ps : List Placed) : Prop :=
  ∀ p ∈ ps, text.extract p.token.span = p.token.text

theorem Spelled.suffix {text : Text} {ps qs : List Placed} (h : Spelled text ps) (hs : qs <:+ ps) :
    Spelled text qs :=
  fun p hp => h p (hs.subset hp)

theorem token_of_mem_ofTokens {ts : List Token} {leading : Nat} {p : Placed}
    (h : p ∈ ofTokens leading ts) : p.token ∈ ts := by
  induction ts generalizing leading with
  | nil => cases h
  | cons t ts ih =>
      rw [ofTokens] at h
      split at h
      all_goals
        rcases List.mem_cons.mp h with rfl | h
        · exact List.mem_cons_self
        · exact .tail _ (ih h)

theorem spelled_ofTokens (text : Text) : Spelled text (ofTokens 0 text.tokens) :=
  fun _ hp => Text.extract_token (token_of_mem_ofTokens hp)

end Placed

theorem Text.extract_empty (text : Text) (n : Nat) : text.extract (Span.empty n) = [] := by
  rw [Span.empty, extract, slice?, if_pos (Nat.le_refl _), Span.length, Nat.sub_self]
  cases text.drop? n with
  | none => rfl
  | some r => cases r <;> rfl

/-- The characters of the leaves of a tree, without the layout between them. -/
def Tree.spelling (t : Tree) : Text := t.leaves.flatMap (·.text)

/-- The first of some siblings that is a name. -/
def Tree.firstName? (ts : List Tree) : Option Tree := ts.find? (·.kind == .node .identifierName)

namespace Laid

variable {text : Text} {es : Array Entry} {parent : Option Nat} {ps qs : List Placed}
  {id stop : Nat} {roots : List Nat} {ts : List Tree}

/-- The text at the place of a node with one token, or none, is that of its token. -/
theorem extract_single {k : Kind} {below : List Nat} (h : Laid text es parent ps id below ts qs stop)
    (hs : Placed.Spelled text ps) (ht : ts = [] ∨ ∃ l, ts = [.leaf l]) (e : Entry)
    (he : e.span = Span.empty (Placed.nextStart text ps)) (next : Nat) :
    text.extract (e.closed text (below.filterMap (es[·]?)) next).span =
      (Tree.node k ts).spelling := by
  obtain rfl | ⟨l, rfl⟩ := ht
  · obtain ⟨rfl, -, -⟩ := h.of_nil
    rw [Entry.closed, he]
    exact Text.extract_empty ..
  · cases h with
    | @leaf _ _ _ _ _ _ q _ _ _ hq hl hi h =>
        obtain ⟨rfl, -, -⟩ := h.of_nil
        have hm : q ∈ ps := (List.dropWhile_suffix _).subset (hq ▸ List.mem_cons_self)
        have hj : q.token.span.join q.token.span = q.token.span := by simp [Span.join]
        rw [Entry.closed, List.filterMap_cons_some hi]
        simp only [List.filterMap_nil, List.map_cons, List.map_nil, Entry.around, List.head?_cons,
          List.getLast?_singleton, hj, hs q hm]
        rw [Tree.spelling, Tree.leaves, leavesOf, leavesOf, Tree.leaves, ← hl]
        simp

/-- The name among some siblings is spelled as its tree is, wherever it stands. -/
theorem firstName (h : Laid text es parent ps id roots ts qs stop) (hs : Placed.Spelled text ps)
    (hn : EverywhereAll Single ts) :
    ((roots.filterMap (es[·]?)).find? (·.kind == .node .identifierName)).map
        (fun e => text.extract e.span) = (firstName? ts).map Tree.spelling := by
  induction h with
  | nil => rfl
  | leaf hq _ he h ih =>
      have hx := (List.suffix_cons _ _).trans (hq ▸ List.dropWhile_suffix _)
      rw [List.filterMap_cons_some he, List.find?_cons_of_neg (by simp), firstName?,
        List.find?_cons_of_neg (by simp [Tree.kind])]
      exact ih (hs.suffix hx) hn.2
  | @node _ _ _ _ _ k us _ _ _ _ _ h he _ _ ih' =>
      rw [List.filterMap_cons_some he, firstName?]
      by_cases hk : k = NodeKind.identifierName
      · rw [List.find?_cons_of_pos (by simpa [Entry.closed] using hk),
          List.find?_cons_of_pos (by simpa [Tree.kind] using hk), Option.map_some, Option.map_some]
        exact congrArg some (h.extract_single hs (hn.1.1 hk) _ rfl _)
      · rw [List.find?_cons_of_neg (by simpa [Entry.closed] using hk),
          List.find?_cons_of_neg (by simpa [Tree.kind] using hk)]
        exact ih' (hs.suffix h.suffix) hn.2

end Laid

/-! ## Nodes without their ranges -/

/-- A node without its ranges. -/
def Entry.unplaced (e : Entry) : Entry := { e with span := Span.empty 0, full := Span.empty 0 }

/-- The same trees laid down from the same number on take the same numbers, below the same parents
and with the same names, whatever texts they are laid down for. -/
theorem Laid.unplaced_eq {text text' : Text} {es es' : Array Entry} {parent : Option Nat}
    {ps qs ps' qs' : List Placed} {id stop stop' : Nat} {roots roots' : List Nat} {ts : List Tree}
    (h : Laid text es parent ps id roots ts qs stop)
    (h' : Laid text' es' parent ps' id roots' ts qs' stop') (hs : Placed.Spelled text ps)
    (hs' : Placed.Spelled text' ps') (hn : EverywhereAll Single ts) :
    roots = roots' ∧ stop = stop' ∧
      (between es id stop).map (·.unplaced) = (between es' id stop').map (·.unplaced) := by
  induction h generalizing ps' qs' roots' stop' with
  | nil =>
      obtain ⟨rfl, -, rfl⟩ := h'.of_nil
      exact ⟨rfl, rfl, by simp [between]⟩
  | leaf hq _ he h ih =>
      cases h' with
      | leaf hq' _ he' h' =>
          have hx := (List.suffix_cons _ _).trans (hq ▸ List.dropWhile_suffix _)
          have hx' := (List.suffix_cons _ _).trans (hq' ▸ List.dropWhile_suffix _)
          obtain ⟨rfl, rfl, hb⟩ := ih h' (hs.suffix hx) (hs'.suffix hx') hn.2
          refine ⟨rfl, rfl, ?_⟩
          rw [between_cons he h.le, between_cons he' h'.le, List.map_cons, List.map_cons, hb]
          rfl
  | node h he hr ih ihr =>
      cases h' with
      | node h' he' hr' =>
          have hb := (h.firstName hs hn.1.2).trans (h'.firstName hs' hn.1.2).symm
          obtain ⟨rfl, rfl, hu⟩ := ih h' hs hs' hn.1.2
          obtain ⟨rfl, rfl, hv⟩ := ihr hr' (hs.suffix h.suffix) (hs'.suffix h'.suffix) hn.2
          refine ⟨rfl, rfl, ?_⟩
          rw [between_cons he (Nat.lt_of_lt_of_le h.le hr.le),
            between_cons he' (Nat.lt_of_lt_of_le h.le hr.le), List.map_cons, List.map_cons,
            ← between_append es h.le hr.le, ← between_append es' h.le hr.le, List.map_append,
            List.map_append, hu, hv]
          simp only [Entry.unplaced, Entry.closed, hb]

/-! ## Texts with the same significant lexemes -/

namespace SyntaxTree

variable {t u : Text}

theorem unplaced_entries (h : t.significant.map (·.toLexeme) = u.significant.map (·.toLexeme)) :
    (parse t).entries.toList.map (·.unplaced) = (parse u).entries.toList.map (·.unplaced) := by
  obtain ⟨_, _, hl, hr, _⟩ := exists_laid t
  obtain ⟨_, _, hl', hr', _⟩ := exists_laid u
  have hf : forest u = forest t := by rw [forest, forest, h]
  obtain ⟨rfl, hs, hb⟩ := hl.unplaced_eq (hf ▸ hl') (Placed.spelled_ofTokens t)
    (Placed.spelled_ofTokens u) (Grammar.single_declarations _)
  rw [← between_size, ← between_size, between_cons hr (parse t).entries_pos,
    between_cons hr' (parse u).entries_pos, List.map_cons, List.map_cons, hb, hs]
  rfl

theorem map_problem_diagnostics (t : Text) :
    (parse t).diagnostics.map (·.problem) = (reading t).2.map (·.1) := by
  obtain ⟨_, _, _, _, _, hu⟩ := exists_laid t
  rw [parse, hu, List.map_nil, List.append_nil, List.map_map]
  rfl

/-- Two texts with the same significant lexemes, by kind and text, have the same tree up to the
ranges of its nodes: number by number, which is preorder, the same kinds, the same parents and
children and the same names. The problems met, and so the messages, are the same in the same order. -/
theorem parse_of_significant
    (h : t.significant.map (·.toLexeme) = u.significant.map (·.toLexeme)) :
    (parse t).entries.toList.map (·.unplaced) = (parse u).entries.toList.map (·.unplaced) ∧
      (parse t).diagnostics.map (·.problem) = (parse u).diagnostics.map (·.problem) := by
  refine ⟨unplaced_entries h, ?_⟩
  rw [map_problem_diagnostics, map_problem_diagnostics, reading, reading, h]

/-- A procedure without its end on one line, and with line breaks, comments and a directive. -/
theorem parse_of_significant_procedure :
    let t : Text := "codeunit 1 A \x7b procedure B() begin x :=; \x7d".toList
    let u : Text :=
      "codeunit 1 A /* B */\r\n\x7b\n#pragma warning\nprocedure B()begin\n\tx:=; // y\n\x7d".toList
    t.significant.map (·.toLexeme) = u.significant.map (·.toLexeme) ∧
      (parse t).entries.toList.map (·.unplaced) = (parse u).entries.toList.map (·.unplaced) ∧
      (parse t).diagnostics.map (·.problem) = (parse u).diagnostics.map (·.problem) := by
  intro t u
  have h : t.significant.map (·.toLexeme) = u.significant.map (·.toLexeme) := by
    rw [Text.lexemes_significant, Text.lexemes_significant]
    decide +kernel
  exact ⟨h, parse_of_significant h⟩

end SyntaxTree

end AlRefactor
