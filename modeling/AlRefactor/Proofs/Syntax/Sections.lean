import AlRefactor.Proofs.Grammar.Hereditary
import AlRefactor.Proofs.Syntax.Preorder

/-!
# Sections of variables are not nested

Whatever is wrong with a text, no section of variables of it stands below another one.
-/

namespace AlRefactor

open AlRefactor.Tree

namespace Tree

/-- A node that is no section of variables. -/
def Sectionless (k : Kind) (_ : List Tree) : Prop := k.isVarSection = false

/-- Below a section of variables there is no further one. -/
def Flat (k : Kind) (ts : List Tree) : Prop := k.isVarSection → EverywhereAll Sectionless ts

theorem not_isVarSection {k : Kind} (h : k ∉ Production.ownDeclarations) : k.isVarSection = false := by
  rcases k with k | k
  · rfl
  · cases k <;> first | rfl | exact absurd (by decide) h

end Tree

namespace Grammar

open Production

section

variable {P : Kind → List Tree → Prop} (hP : ∀ k ts, k.isVarSection = false → P k ts)
include hP

theorem everywhere_stretch (k : NodeKind) (hk : k = .memberAttribute ∨ k = .sectionArguments)
    (c : Cursor) : EverywhereAll P ((node k balanced).read c).made := by
  refine everywhere_node (hP _ _ ?_) makes_balanced.read
  rcases hk with rfl | rfl <;> rfl

theorem everywhere_attributes (c : Cursor) : EverywhereAll P (attributes.read c).made :=
  everywhere_rounds (everywhere_stretch hP _ (.inl rfl)) _ c

theorem everywhere_sectionArguments (c : Cursor) : EverywhereAll P (sectionArguments.read c).made := by
  rw [sectionArguments, read_choose]
  split
  · exact everywhere_stretch hP _ (.inr rfl) c
  · exact trivial

theorem everywhere_declarations
    (hv : ∀ k, k = .varSection ∨ k = .globalVarSection →
      ∀ c, EverywhereAll P ((varSection k).read c).made) (c : Cursor) :
    EverywhereAll P (declarations.read c).made := by
  have hd : ∀ k ts, k ∉ ownDeclarations → P k ts := fun k ts hk => hP k ts (not_isVarSection hk)
  have h := hereditary_everywhere hd
  have he := h.expression (everywhere_grow hd)
  have hw := h.expressionWithoutIn (everywhere_grow hd)
  exact h.declarations he (fun p hp c => everywhere_node (hP _ _ rfl) (h.conditional he hp c))
    (fun p hp c => everywhere_node (hP _ _ rfl) (h.loopParts he hw hp c)) hv
    (everywhere_attributes hP) (everywhere_sectionArguments hP) c

end

theorem flat_declarations (c : Cursor) : EverywhereAll Flat (declarations.read c).made := by
  have hP : ∀ k ts, k.isVarSection = false → Flat k ts := fun k ts h h' => by
    rw [h] at h'
    cases h'
  have hd : ∀ k ts, k ∉ ownDeclarations → Flat k ts := fun k ts hk => hP k ts (not_isVarSection hk)
  have hs := hereditary_everywhere (P := Sectionless) fun _ _ => not_isVarSection
  have hf := hereditary_everywhere hd
  exact everywhere_declarations hP (fun k _ c => everywhere_node
    (fun _ => hs.sectionVariables (everywhere_attributes fun _ _ h => h) c)
    (hf.sectionVariables (everywhere_attributes hP) c)) c

end Grammar

namespace SyntaxTree

variable {text : Text} {n m : Node}

theorem not_below_section (hn : n ∈ (parse text).nodes) (hm : m ∈ (parse text).nodes)
    (hnk : n.kind.isVarSection) (hmk : m.kind.isVarSection) (hne : n.id ≠ m.id) :
    ¬ Below (parse text).entries n.id m.id := by
  intro hb
  obtain ⟨_, he⟩ := of_mem_nodes hn
  obtain ⟨_, hf⟩ := of_mem_nodes hm
  obtain ⟨ps, us, qs, hl, _, ⟨l, hk, _⟩ | hr⟩ := exists_subtree_of
    (P := Flat) ⟨nofun, Grammar.flat_declarations _⟩ he
  · rw [Node.kind, hk] at hnk
    cases hnk
  · obtain ⟨hle, hlt⟩ := (below_iff he).mp hb
    obtain ⟨_, _, _, _, _, ⟨l, hk, _⟩ | hs⟩ := hl.subtree (hr hnk) hf (by omega) hlt
    · rw [Node.kind, hk] at hmk
      cases hmk
    · exact Bool.false_ne_true (hs.symm.trans hmk)

end SyntaxTree

end AlRefactor
