import Mathlib.Data.List.Basic
import AlRefactor.Proofs.Grammar.Progress
import AlRefactor.Proofs.Syntax.Replay

/-!
# Trees as they lie in an arena

The nodes of some sibling trees take consecutive numbers of an arena. Building adds them behind the
nodes that are there, and changes none of these but the innermost open one, which gets children.
-/

namespace AlRefactor

open AlRefactor.Tree

/-- Sibling trees below a parent that an arena holds from a number on, made from the tokens from a
place on: the numbers of their roots, the place behind the last of their tokens, and the number
behind the last of their nodes. -/
inductive Laid (text : Text) (es : Array Entry) :
    Option Nat → List Placed → Nat → List Nat → List Tree → List Placed → Nat → Prop where
  | nil {parent ps id} : Laid text es parent ps id [] [] ps id
  | leaf {parent ps id roots l ts q qs rs stop} :
      ps.dropWhile (·.isLayout) = q :: qs → q.token.toLexeme = l →
      es[id]? = some ⟨l.kind, q.token.span, q.full, parent, [], id + 1, none⟩ →
      Laid text es parent qs (id + 1) roots ts rs stop →
      Laid text es parent ps id (id :: roots) (.leaf l :: ts) rs stop
  | node {parent ps id below roots k us ts qs rs mid stop} :
      Laid text es (some id) ps (id + 1) below us qs mid →
      es[id]? = some (Entry.closed text ⟨k, Span.empty (Placed.nextStart text ps),
        Span.empty (Placed.nextStart text ps), parent, below, id + 1, none⟩
        (below.filterMap (es[·]?)) mid) →
      Laid text es parent qs mid roots ts rs stop →
      Laid text es parent ps id (id :: roots) (.node k us :: ts) rs stop

namespace Laid

variable {text : Text} {es es' : Array Entry} {parent : Option Nat} {ps qs rs : List Placed}
  {id mid stop : Nat} {roots roots' : List Nat} {ts us : List Tree}

theorem le (h : Laid text es parent ps id roots ts qs stop) : id ≤ stop := by
  induction h with
  | nil => exact Nat.le_refl _
  | leaf _ _ _ _ ih => omega
  | node _ _ _ ih ih' => omega

theorem of_nil (h : Laid text es parent ps id roots [] qs stop) :
    roots = [] ∧ qs = ps ∧ stop = id := by
  cases h; exact ⟨rfl, rfl, rfl⟩

theorem roots_mem (h : Laid text es parent ps id roots ts qs stop) :
    ∀ i ∈ roots, id ≤ i ∧ i < stop := by
  induction h with
  | nil => simp
  | leaf _ _ _ h ih =>
      have := h.le
      intro i hi
      rcases List.mem_cons.mp hi with rfl | hi
      · omega
      · have := ih i hi; omega
  | node h _ h' _ ih' =>
      have := h.le
      have := h'.le
      intro i hi
      rcases List.mem_cons.mp hi with rfl | hi
      · omega
      · have := ih' i hi; omega

theorem append (h : Laid text es parent ps id roots ts qs mid)
    (h' : Laid text es parent qs mid roots' us rs stop) :
    Laid text es parent ps id (roots ++ roots') (ts ++ us) rs stop := by
  induction h with
  | nil => exact h'
  | leaf hp hl he _ ih => exact .leaf hp hl he (ih h')
  | node h he _ _ ih' => exact .node h he (ih' h')

/-- Only the numbers that the trees take count. -/
theorem congr (h : Laid text es parent ps id roots ts qs stop)
    (he : ∀ i, id ≤ i → i < stop → es'[i]? = es[i]?) :
    Laid text es' parent ps id roots ts qs stop := by
  induction h with
  | nil => exact .nil
  | leaf hp hl hi h ih =>
      have := h.le
      exact .leaf hp hl (by rw [he _ (by omega) (by omega), hi]) (ih fun i _ _ => he i (by omega) (by omega))
  | @node _ _ id below _ _ _ _ _ _ mid _ h hi h' ih ih' =>
      have := h.le
      have := h'.le
      have hb : below.filterMap (es'[·]?) = below.filterMap (es[·]?) :=
        List.filterMap_congr fun i hm => he i (by have := h.roots_mem i hm; omega)
          (by have := h.roots_mem i hm; omega)
      refine .node (ih fun i _ _ => he i (by omega) (by omega)) ?_
        (ih' fun i _ _ => he i (by omega) (by omega))
      rw [he _ (by omega) (by omega), hi, hb]

end Laid

namespace Builder

/-- What building trees does to an arena: new nodes come behind the old ones, and the innermost open
node gets the roots of the trees as children. -/
structure Extends (b b' : Builder) (roots : List Nat) : Prop where
  opened : b'.opened = b.opened
  unmatched : b'.unmatched = b.unmatched
  old : ∀ i < b.entries.size, b'.entries[i]? = b.entries[i]?.map fun e =>
    if b.opened.head? = some i then { e with children := e.children ++ roots } else e

theorem Extends.trans {b b' b'' : Builder} {roots roots' : List Nat} (h : Extends b b' roots)
    (h' : Extends b' b'' roots') (hs : b.entries.size ≤ b'.entries.size) :
    Extends b b'' (roots ++ roots') where
  opened := h'.opened.trans h.opened
  unmatched := h'.unmatched.trans h.unmatched
  old i hi := by
    rw [h'.old i (by omega), h.old i hi, h.opened, Option.map_map]
    congr 1; funext e
    by_cases hp : b.opened.head? = some i <;> simp [hp]

theorem Extends.refl (b : Builder) : Extends b b [] :=
  ⟨rfl, rfl, fun i _ => by simp⟩

/-! ## One step -/

theorem getElem?_withChild (es : Array Entry) (parent : Option Nat) (id i : Nat) :
    (withChild es parent id)[i]? = es[i]?.map fun e =>
      if parent = some i then { e with children := e.children ++ [id] } else e := by
  unfold withChild; split
  · simp
  · rename_i p
    rw [Array.getElem?_modify]
    by_cases h : p = i <;> simp [h]

theorem getElem?_add_size (b : Builder) (k : Kind) (span full : Span) :
    (b.add k span full).entries[b.entries.size]? =
      some ⟨k, span, full, b.opened.head?, [], b.entries.size + 1, none⟩ := by
  rw [add, Array.getElem?_push]; simp

theorem getElem?_add_of_lt (b : Builder) (k : Kind) (span full : Span) {i : Nat}
    (h : i < b.entries.size) : (b.add k span full).entries[i]? = b.entries[i]?.map fun e =>
      if b.opened.head? = some i then { e with children := e.children ++ [b.entries.size] }
      else e := by
  simp [add, Array.getElem?_push, Nat.ne_of_lt h, getElem?_withChild]

theorem extends_add (b : Builder) (k : Kind) (span full : Span) :
    Extends b (b.add k span full) [b.entries.size] :=
  ⟨rfl, rfl, fun _ h => getElem?_add_of_lt b k span full h⟩

theorem laid_addToken (text : Text) (b : Builder) (l : Lexeme) (ls : List Lexeme)
    (h : b.lexemes = l :: ls) :
    Extends b (b.addToken l.kind) [b.entries.size] ∧
      Laid text (b.addToken l.kind).entries b.opened.head? b.tokens b.entries.size [b.entries.size]
        [.leaf l] (b.addToken l.kind).tokens (b.addToken l.kind).entries.size := by
  obtain ⟨q, qs, hq, hl, _⟩ := b.exists_placed h
  have he := extends_add b l.kind q.token.span q.full
  rw [addToken_eq b _ hq]
  refine ⟨⟨he.opened, he.unmatched, he.old⟩, .leaf hq hl ?_ ?_⟩
  · exact getElem?_add_size ..
  · rw [size_add]; exact .nil

/-- A node that is opened here, when it has its children but is not closed yet. -/
def unclosed (text : Text) (b : Builder) (k : Kind) (roots : List Nat) : Entry :=
  let place := Span.empty (Placed.nextStart text b.tokens)
  ⟨k, place, place, b.opened.head?, roots, b.entries.size + 1, none⟩

theorem getElem?_unclosed {text : Text} {b b' : Builder} {k : Kind} {roots : List Nat}
    (h : Extends (b.openNode text k) b' roots) :
    b'.entries[b.entries.size]? = some (b.unclosed text k roots) := by
  have hn : (b.openNode text k).entries[b.entries.size]? = _ := getElem?_add_size ..
  rw [h.old _ (by simp), hn]
  simp [openNode, unclosed]

theorem extends_closeNode (text : Text) {b b' : Builder} (k : Kind) {roots : List Nat}
    (h : Extends (b.openNode text k) b' roots) :
    Extends b (b'.closeNode text) [b.entries.size] ∧
      (∀ i, i ≠ b.entries.size → (b'.closeNode text).entries[i]? = b'.entries[i]?) ∧
      (b'.closeNode text).entries[b.entries.size]? =
        some ((b.unclosed text k roots).closed text (roots.filterMap (b'.entries[·]?))
          b'.entries.size) := by
  have ho : b'.opened = b.entries.size :: b.opened := h.opened
  have hc : b'.closeNode text = { b' with
      entries := b'.entries.modify b.entries.size fun e =>
        e.closed text (e.children.filterMap (b'.entries[·]?)) b'.entries.size
      opened := b.opened } := by simp only [closeNode, ho]
  have hi : ∀ i, i ≠ b.entries.size → (b'.closeNode text).entries[i]? = b'.entries[i]? := by
    intro i hi
    simp only [hc, Array.getElem?_modify, hi.symm, ↓reduceIte]
  refine ⟨⟨by rw [hc], by rw [hc]; exact h.unmatched, fun i hlt => ?_⟩, hi, ?_⟩
  · rw [hi i (Nat.ne_of_lt hlt), h.old i (by simp; omega)]
    simp [openNode, getElem?_add_of_lt, hlt, Nat.ne_of_gt hlt]
  · simp only [hc, Array.getElem?_modify, getElem?_unclosed h]
    simp [unclosed]

mutual
theorem laid_lay (text : Text) : (t : Tree) → (b : Builder) → (rest : List Lexeme) →
    (∀ p, b.opened.head? = some p → p < b.entries.size) → b.lexemes = t.leaves ++ rest →
    ∃ roots, Extends b (b.lay text t) roots ∧
      Laid text (b.lay text t).entries b.opened.head? b.tokens b.entries.size roots [t]
        (b.lay text t).tokens (b.lay text t).entries.size
  | .leaf l, b, rest, _, h => ⟨_, laid_addToken text b l rest h⟩
  | .node k ts, b, rest, hp, h => by
      have hb : (b.openNode text k).lexemes = leavesOf ts ++ rest := by rwa [lexemes_openNode]
      obtain ⟨below, he, hl⟩ := laid_layAll text ts (b.openNode text k) rest
        (by simp [openNode]) hb
      rw [size_openNode] at hl
      rw [lay]
      generalize hb' : (b.openNode text k).layAll text ts = b' at *
      have hs : b.entries.size + 1 ≤ b'.entries.size := hl.le
      obtain ⟨hx, hi, hn⟩ := extends_closeNode text k he
      have hf : below.filterMap ((b'.closeNode text).entries[·]?) =
          below.filterMap (b'.entries[·]?) :=
        List.filterMap_congr fun i hm => hi i (by have := hl.roots_mem i hm; omega)
      have hz : (b'.closeNode text).entries.size = b'.entries.size := by
        unfold closeNode; split <;> simp
      have ht : (b'.closeNode text).tokens = b'.tokens := by unfold closeNode; split <;> rfl
      refine ⟨_, hx, ?_⟩
      rw [hz, ht]
      refine .node (hl.congr fun i h _ => hi i (by omega)) ?_ .nil
      rw [hf]; exact hn

theorem laid_layAll (text : Text) : (ts : List Tree) → (b : Builder) → (rest : List Lexeme) →
    (∀ p, b.opened.head? = some p → p < b.entries.size) → b.lexemes = leavesOf ts ++ rest →
    ∃ roots, Extends b (b.layAll text ts) roots ∧
      Laid text (b.layAll text ts).entries b.opened.head? b.tokens b.entries.size roots ts
        (b.layAll text ts).tokens (b.layAll text ts).entries.size
  | [], b, _, _, _ => ⟨[], Extends.refl b, .nil⟩
  | t :: ts, b, rest, hp, h => by
      rw [leavesOf, List.append_assoc] at h
      obtain ⟨roots, he, hl⟩ := laid_lay text t b _ hp h
      have hs := hl.le
      obtain ⟨roots', he', hl'⟩ := laid_layAll text ts (b.lay text t) rest
        (fun p hh => by have := hp p (he.opened ▸ hh); omega) (lexemes_lay text t b _ h)
      refine ⟨roots ++ roots', he.trans he' hs, (hl.congr fun i hi hlt => ?_).append ?_⟩
      · rw [layAll, he'.old i hlt, he.opened]
        have hn : b.opened.head? ≠ some i := fun hh => by have := hp i hh; omega
        simp [hn]
      · rw [← he.opened]; exact hl'
end

end Builder

/-! ## The arena of a text -/

theorem Placed.lexemes_ofTokens (leading : Nat) (ts : List Token) :
    ((ofTokens leading ts).filter fun p => !p.isLayout).map (·.token.toLexeme) =
      (ts.filter (·.isSignificant)).map (·.toLexeme) := by
  induction ts generalizing leading with
  | nil => rfl
  | cons t ts ih =>
      simp only [isLayout, Lexeme.isSignificant] at ih ⊢
      by_cases h : t.kind.isTrivia <;> simp [ofTokens, h, ih]

namespace SyntaxTree

/-- The trees of a text, as the grammar reads them, without the root around them. -/
def forest (text : Text) : List Tree :=
  (Grammar.declarations.read ⟨0, text.significant.map (·.toLexeme)⟩).made

theorem leavesOf_forest (text : Text) :
    leavesOf (forest text) = text.significant.map (·.toLexeme) := by
  have h := Production.read_leaves Grammar.declarations ⟨0, text.significant.map (·.toLexeme)⟩
  rwa [Grammar.rest_declarations, List.append_nil] at h

theorem build_eq_lay (text : Text) : build text =
    (Builder.start text).lay text (.node NodeKind.compilationUnit (forest text)) := by
  have h := (Production.agrees Grammar.file ⟨0, text.significant.map (·.toLexeme)⟩).emission
  have hr := Builder.replay_emission text h (Builder.start text) [] (Placed.lexemes_ofTokens 0 text.tokens)
  have hm : (Grammar.file.read ⟨0, text.significant.map (·.toLexeme)⟩).made =
      [.node NodeKind.compilationUnit (forest text)] := by
    rw [Grammar.file, Production.read_node]; rfl
  rw [List.append_nil, Builder.replay, hm] at hr
  exact hr

/-- What the arena of a text holds: a root, and below it the trees of the text with all its tokens as
leaves. -/
theorem exists_laid (text : Text) : ∃ roots rest,
    Laid text (parse text).entries (some 0) (Placed.ofTokens 0 text.tokens) 1 roots (forest text)
      rest (parse text).entries.size ∧
    (parse text).entries[0]? = some ⟨NodeKind.compilationUnit, ⟨0, text.size⟩, ⟨0, text.size⟩, none,
      roots, (parse text).entries.size, none⟩ ∧
    (build text).opened = [] ∧ (build text).unmatched = [] := by
  obtain ⟨roots, he, hl⟩ := Builder.laid_lay text
    (.node NodeKind.compilationUnit (forest text)) (Builder.start text) []
    nofun (by rw [Tree.leaves, leavesOf_forest, List.append_nil]; exact Placed.lexemes_ofTokens ..)
  rw [← build_eq_lay] at he hl
  have hs : (parse text).entries.size = (build text).entries.size := Array.size_modify
  have hi : ∀ i, i ≠ 0 → (parse text).entries[i]? = (build text).entries[i]? := fun i hi => by
    simp only [parse, Array.getElem?_modify, hi.symm, ↓reduceIte]
  cases hl with
  | node h hn hr =>
      obtain ⟨_, _, hm⟩ := hr.of_nil
      rw [← hm] at h hn
      have hn : (build text).entries[0]? = _ := hn
      refine ⟨_, _, hs ▸ h.congr fun i (hle : 1 ≤ i) _ => hi i (by omega), ?_, he.opened,
        he.unmatched⟩
      rw [hs]
      simp only [parse, Array.getElem?_modify, ↓reduceIte, hn]
      rfl

end SyntaxTree

end AlRefactor
