import Mathlib.Data.List.Forall2
import AlRefactor.Proofs.Syntax.Standing

/-!
# The same nodes in two texts

Where more tokens are put between those of a text, a tree that stands before them or behind them is shown
by nodes of both texts. These nodes have the same kinds and texts, and declare the same.
-/

namespace AlRefactor

open AlRefactor.Tree Lexeme SyntaxTree

/-- Nodes of two texts that show the same tree, before or behind what one of the texts has more. -/
structure Twin (t t' : Text) (L S : List Lexeme) (n n' : Node) : Prop where
  shows : ∃ k k' u, Moves L S k k' u.leaves.length ∧ Shows t k [n] [u] ∧ Shows t' k' [n'] [u]

section

variable {t t' : Text} {L S M : List Lexeme} {k k' : Nat} {n n' : Node} {ns ns' : List Node} {ts : List Tree}

theorem twins (hm : Moves L S k k' (leavesOf ts).length) (h : Shows t k ns ts) (h' : Shows t' k' ns' ts) :
    List.Forall₂ (Twin t t' L S) ns ns' := by
  induction h generalizing k' ns' with
  | nil => cases h'; exact .nil
  | @cons k n ns u ts hn hk hs hc _ _ ih =>
      cases h' with
      | cons hn' hk' hs' hc' h' =>
          rw [leavesOf, List.length_append] at hm
          exact .cons ⟨k, k', u, hm.part (i := 0) (by omega), .cons hn hk hs hc .nil,
            .cons hn' hk' hs' hc' .nil⟩ (ih (hm.part (by omega)) h')

namespace Twin

theorem kind (h : Twin t t' L S n n') : n'.kind = n.kind := by
  obtain ⟨_, _, _, -, hs, hs'⟩ := h.shows
  exact hs'.kind.trans hs.kind.symm

theorem mem (h : Twin t t' L S n n') : n ∈ (parse t).nodes ∧ n' ∈ (parse t').nodes := by
  obtain ⟨_, _, _, -, hs, hs'⟩ := h.shows
  exact ⟨hs.mem, hs'.mem⟩

theorem is (h : Twin t t' L S n n') (k : Kind) : n'.is k = n.is k := by
  rw [Node.is, Node.is, h.kind]

theorem text (hS : Spliced t t' L S M) (h : Twin t t' L S n n') : n'.text = n.text := by
  obtain ⟨k, k', u, hm, hs, hs'⟩ := h.shows
  obtain ⟨_, cs, _, hst, -, -, hc⟩ := hs.spans.exists_stretch hs.mem
  obtain ⟨_, cs', _, hst', -, -, hc'⟩ := hs'.spans.exists_stretch hs'.mem
  rw [hc, hc', hS.stretch_eq hm hst hst']

theorem children (h : Twin t t' L S n n') : List.Forall₂ (Twin t t' L S) n.children n'.children := by
  obtain ⟨k, k', u, hm, hs, hs'⟩ := h.shows
  refine twins ?_ hs.children hs'.children
  cases u with
  | leaf l => exact hm.part (i := 0) (by simp [Tree.parts, leavesOf])
  | node j us => exact hm

end Twin

/-- The first of some nodes that has a kind is found among their twins. -/
theorem find?_of_twins (h : List.Forall₂ (Twin t t' L S) ns ns') (k : Kind) :
    Option.Rel (Twin t t' L S) (ns.find? (·.is k)) (ns'.find? (·.is k)) := by
  induction h with
  | nil => exact .none
  | @cons a b _ _ hab _ ih =>
      rw [List.find?_cons, List.find?_cons, hab.is k]
      cases a.is k with
      | true => exact .some hab
      | false => exact ih

end

/-! ## Names and types -/

namespace Node

/-- The kind and the text of a node. -/
def word (n : Node) : Kind × Text := (n.kind, n.text)

/-- The text of the first of some words that has a kind. -/
def wordOf? (k : Kind) (ws : List (Kind × Text)) : Option Text := (ws.find? (·.1 == k)).map (·.2)

variable {text : Text} {n e s : Node}

theorem name_eq_word (hn : n ∈ (parse text).nodes) :
    n.name = if n.kind.isNamed then wordOf? NodeKind.identifierName (n.children.map word) else none := by
  rw [SyntaxTree.name_eq hn, wordOf?, List.find?_map, Option.map_map]
  rfl

theorem typeOfEntry_eq_word (e : Node) :
    e.typeOfEntry = (((e.children.map word).filter (·.1 == .node .typeReference)).getLast?.map (·.2)).getD [] := by
  rw [typeOfEntry, typeText, lastChild?, childrenOf, List.filter_map, List.getLast?_map, Option.map_map]
  rfl

/-- The declarations that an entry of a section consists of. -/
def entryDeclarations (e : Node) : List Node :=
  if e.is NodeKind.variableDeclaration then [e]
  else if e.is NodeKind.variableListDeclaration then e.childrenOf NodeKind.variableDeclarationName
  else []

/-- A declared variable: its name and its type. -/
def declared (d : Node) : Text × Text := (d.toVariable.name, d.toVariable.type)

theorem sectionDeclarations_eq (s : Node) :
    s.sectionDeclarations = s.childNodes.flatMap entryDeclarations := rfl

/-- All names of an entry have its type. -/
theorem declared_entry (he : e ∈ (parse text).nodes) :
    e.entryDeclarations.map declared = e.entryDeclarations.map fun d => (d.name.getD [], e.typeOfEntry) := by
  refine List.map_congr_left fun d hd => ?_
  have hplain (o : Option Text) (name type : Text) :
      ((Variable.plain name type).ownedBy? o).name = name ∧ ((Variable.plain name type).ownedBy? o).type = type := by
    cases o <;> exact ⟨rfl, rfl⟩
  suffices h : (if d.is NodeKind.variableDeclarationName then d.parent.getD d else d) = e by
    rw [declared, toVariable]
    dsimp only
    rw [h, (hplain ..).1, (hplain ..).2]
    rfl
  rw [entryDeclarations] at hd
  split at hd
  · rename_i hk
    obtain rfl := List.mem_singleton.mp hd
    have hk : d.kind = NodeKind.variableDeclaration := by simpa [is] using hk
    rw [if_neg (by simp [is, hk])]
  · split at hd
    · obtain ⟨hm, hk⟩ := mem_of_childrenOf hd
      rw [if_pos (by simp [is, hk]), (parent_of_mem_children he hm).2]
      rfl
    · exact absurd hd List.not_mem_nil

end Node

section

variable {t t' : Text} {L S M : List Lexeme} {n n' : Node} {ns ns' : List Node}

theorem map_eq_of_forall₂ {α β γ : Type} {R : α → β → Prop} {f : α → γ} {g : β → γ} {as : List α}
    {bs : List β} (h : List.Forall₂ R as bs) (hfg : ∀ a b, R a b → f a = g b) : as.map f = bs.map g := by
  rw [← List.forall₂_eq_eq_eq]
  exact List.forall₂_map_left_iff.mpr (List.forall₂_map_right_iff.mpr (h.imp hfg))

namespace Twin

variable (hS : Spliced t t' L S M)

include hS

theorem words (h : Twin t t' L S n n') : n.children.map Node.word = n'.children.map Node.word :=
  map_eq_of_forall₂ h.children fun _ _ h => by rw [Node.word, Node.word, h.kind, h.text hS]

theorem name (h : Twin t t' L S n n') : n'.name = n.name := by
  obtain ⟨hn, hn'⟩ := h.mem
  rw [Node.name_eq_word hn, Node.name_eq_word hn', h.kind, h.words hS]

theorem typeOfEntry (h : Twin t t' L S n n') : n'.typeOfEntry = n.typeOfEntry := by
  rw [Node.typeOfEntry_eq_word, Node.typeOfEntry_eq_word, h.words hS]

/-- Entries that are twins declare the same variables. -/
theorem declared (h : Twin t t' L S n n') :
    n.entryDeclarations.map Node.declared = n'.entryDeclarations.map Node.declared := by
  obtain ⟨hn, hn'⟩ := h.mem
  have hd : List.Forall₂ (Twin t t' L S) n.entryDeclarations n'.entryDeclarations := by
    rw [Node.entryDeclarations, Node.entryDeclarations, h.is, h.is]
    split
    · exact .cons h .nil
    · split
      · exact List.rel_filter (fun _ _ h => iff_of_eq (congrArg (· = true) (h.is _).symm)) h.children
      · exact .nil
  rw [Node.declared_entry hn, Node.declared_entry hn']
  exact map_eq_of_forall₂ hd fun d d' hd => by rw [hd.name hS, h.typeOfEntry hS]

end Twin

end

end AlRefactor
