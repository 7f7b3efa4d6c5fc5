import Mathlib.Data.List.DropRight
import AlRefactor.Declaration.Variable
import AlRefactor.Proofs.Grammar.DeclaringObjects
import AlRefactor.Proofs.Token.Cuts
import AlRefactor.Proofs.Token.Separators

/-!
# The line of a variable

A variable is declared by a line of its own if this line is read as one declaration. Then it is read as
the same declaration wherever the line is put between other tokens.
-/

namespace AlRefactor

open AlRefactor.Tree Lexeme Grammar

namespace Lexeme

/-- From the first significant lexeme to the last one. -/
def core (ls : List Lexeme) : List Lexeme :=
  (ls.dropWhile fun l => !l.isSignificant).rdropWhile fun l => !l.isSignificant

theorem core_split {ls : List Lexeme} (h : solid ls ≠ []) :
    ∃ g g', ls = g ++ (core ls ++ g') ∧ solid g = [] ∧ solid g' = [] ∧ Leads (core ls) ∧ Closes (core ls) := by
  have hlay {g : List Lexeme} (hg : ∀ l ∈ g, (!l.isSignificant) = true) : solid g = [] :=
    List.filter_eq_nil_iff.mpr fun l hl => by simpa using hg l hl
  have hls := List.takeWhile_append_dropWhile (p := fun l : Lexeme => !l.isSignificant) (l := ls)
  have hms := List.rdropWhile_append_rtakeWhile (p := fun l : Lexeme => !l.isSignificant)
    (l := ls.dropWhile fun l => !l.isSignificant)
  have hg := hlay fun l hl => List.mem_takeWhile_imp (p := fun l : Lexeme => !l.isSignificant) (l := ls) hl
  have hc : core ls ≠ [] := fun hn => h (by
    rw [← hls, solid_append, hg, hlay (List.rdropWhile_eq_nil_iff.mp hn)]
    rfl)
  refine ⟨_, _, by rw [core, hms, hls], hg, hlay fun l hl =>
    List.mem_rtakeWhile_imp (p := fun l : Lexeme => !l.isSignificant) hl, ?_, ?_⟩
  · obtain ⟨l, ms, hl⟩ := List.exists_cons_of_ne_nil hc
    refine ⟨l, ms, hl, ?_⟩
    have hd := List.head?_dropWhile_not (fun l : Lexeme => !l.isSignificant) ls
    rw [← hms, ← core, hl] at hd
    simpa using hd
  · have hl : ¬ (!((core ls).getLast hc).isSignificant) = true := List.rdropWhile_last_not _ _ hc
    exact ⟨_, _, (List.dropLast_append_getLast hc).symm, by simpa using hl⟩

theorem isSignificant_of_isName {l : Lexeme} (h : l.kind.isName) : l.isSignificant := by
  cases hk : l.kind <;> simp_all [TokenKind.isName, isSignificant, TokenKind.isTrivia]

end Lexeme

namespace Variable

variable {v : Variable}

/-- The line of a variable is one declaration, which ends with the semicolon at the end of the line. -/
structure Declarable (v : Variable) : Prop where
  identifier : v.name.isIdentifier
  closed : (lex v.sectionLine).getLast? = some Lexeme.semicolon
  reads : (variableDeclaration.read ⟨0, solid (lex v.sectionLine)⟩).problems = []
  alone : (variableDeclaration.read ⟨0, solid (lex v.sectionLine)⟩).rest.ahead = []

/-- The type of a variable once it is declared: from the first token behind the colon to the last one
before the semicolon. -/
def declaredType (v : Variable) : Text :=
  (core ((lex v.sectionLine).drop 2).dropLast).flatMap (·.text)

def colon : Lexeme := ⟨.colon, [':']⟩

/-- A single declaration of a name. -/
def declarationTree (name : Lexeme) (type : List Tree) : Tree :=
  .node NodeKind.variableDeclaration
    [.node NodeKind.identifierName [.leaf name], .leaf colon, .node NodeKind.typeReference type,
      .leaf Lexeme.semicolon]

/-- The line of a variable as its name, the colon, its type and the semicolon, and as a tree. -/
structure Line (v : Variable) (name : Lexeme) (type : List Tree) (typeText : List Lexeme) : Prop where
  isName : name.kind.isName
  text : name.text = v.name
  lexemes : lex v.sectionLine = name :: colon :: (typeText ++ [Lexeme.semicolon])
  leavesOf : leavesOf type = solid typeText
  ne_nil : solid typeText ≠ []
  declaredType : v.declaredType = (core typeText).flatMap (·.text)
  leaves : (declarationTree name type).leaves = solid (lex v.sectionLine)
  declares : Declares (declarationTree name type)

end Variable

namespace Grammar

open Production

variable {l : Lexeme} {ls : List Lexeme}

/-- What is read of a name and a colon on is a single declaration. -/
theorem made_variableDeclaration (hl : l.kind ≠ .lBracket)
    (hn : (variableDeclaration.read ⟨0, l :: Variable.colon :: ls⟩).problems = []) :
    ∃ (us : List Tree) (r : Lexeme), r.kind = .semicolon ∧
      (variableDeclaration.read ⟨0, l :: Variable.colon :: ls⟩).made =
        [.node NodeKind.variableDeclaration
          [.node NodeKind.identifierName [.leaf l], .leaf Variable.colon,
            .node NodeKind.typeReference us, .leaf r]] ∧
      ls = leavesOf us ++ r :: (variableDeclaration.read ⟨0, l :: Variable.colon :: ls⟩).rest.ahead ∧
      leavesOf us ≠ [] := by
  have ha : attributes.read ⟨0, l :: Variable.colon :: ls⟩ =
      ⟨[], false, [], ⟨0, l :: Variable.colon :: ls⟩⟩ :=
    read_whileAt_of_not _ _ (by simpa [Cursor.isAt, Cursor.kind, Cursor.peek] using hl)
  have hb : variableBody.read ⟨0, l :: Variable.colon :: ls⟩ =
      (name ++ (take ++ typeReference) ++ require .semicolon).read ⟨0, l :: Variable.colon :: ls⟩ := rfl
  obtain ⟨us, ht⟩ : ∃ us, (typeReference.read ⟨2, ls⟩).made = [.node NodeKind.typeReference us] := by
    rw [typeReference, read_node]
    exact ⟨_, rfl⟩
  have hl := read_leaves typeReference ⟨2, ls⟩
  rw [variableDeclaration_eq, read_mark, ha, hb, read_append] at hn ⊢
  have hq : (name ++ (take ++ typeReference)).read ⟨0, l :: Variable.colon :: ls⟩ =
      ⟨.node NodeKind.identifierName [.leaf l] :: .leaf Variable.colon :: (typeReference.read ⟨2, ls⟩).made,
        false, (typeReference.read ⟨2, ls⟩).problems, (typeReference.read ⟨2, ls⟩).rest⟩ := rfl
  rw [hq] at hn ⊢
  have hp : (typeReference.read ⟨2, ls⟩).problems ++
      ((require .semicolon).read (typeReference.read ⟨2, ls⟩).rest).problems = [] := hn
  obtain ⟨r, hr, hm, hra⟩ := read_require (by decide) (List.append_eq_nil_iff.mp hp).2
  rw [ht, hra] at hl
  have hls := (show ls = leavesOf us ++ r :: _ by simpa [leavesOf, leaves] using hl.symm)
  refine ⟨us, r, hr, ?_, hls, fun hu => ?_⟩
  · dsimp only
    rw [hm, ht]
    rfl
  · -- A type does not start with a semicolon.
    rw [hu, List.nil_append] at hls
    have hn := (List.append_eq_nil_iff.mp hp).1
    rw [hls, typeReference, read_node, read_look, typeUpTo, read_look, Cursor.kind, Cursor.peek] at hn
    simp [hr, TokenKind.isName] at hn

end Grammar

namespace Variable

variable {v : Variable}

/-- What the lexer and the grammar make of the line of a variable that can be declared. -/
theorem Declarable.exists_line (h : v.Declarable) : ∃ (l : Lexeme) (us : List Tree) (ts : List Lexeme),
    v.Line l us ts := by
  obtain ⟨k, hk, hname⟩ := lex_append_colon h.identifier
  have hline : v.sectionLine = v.name ++ ':' :: ' ' :: (v.type ++ [';']) := by
    simp [sectionLine]
  have hlex : lex v.sectionLine = ⟨k, v.name⟩ :: colon :: lex (' ' :: (v.type ++ [';'])) := by
    rw [hline, hname, lex_colon_blank]
    rfl
  obtain ⟨ts, hts⟩ : ∃ ts, lex (' ' :: (v.type ++ [';'])) = ts ++ [Lexeme.semicolon] := by
    obtain ⟨ls, hls⟩ := List.getLast?_eq_some_iff.mp h.closed
    rw [hlex] at hls
    rcases List.eq_nil_or_concat (lex (' ' :: (v.type ++ [';']))) with hn | ⟨ts, l, hl⟩
    · rw [lex_cons] at hn
      cases hn
    · rw [hl, List.concat_eq_append] at hls ⊢
      have hls : (⟨k, v.name⟩ :: colon :: ts) ++ [l] = ls ++ [Lexeme.semicolon] := hls
      obtain ⟨-, he⟩ := List.append_inj' hls rfl
      exact ⟨ts, by rw [he]⟩
  rw [hts] at hlex
  have hsolid : solid (lex v.sectionLine) = ⟨k, v.name⟩ :: colon :: (solid ts ++ [Lexeme.semicolon]) := by
    rw [hlex, solid_cons (isSignificant_of_isName (l := ⟨k, v.name⟩) hk), solid_cons rfl, solid_append]
    rfl
  have hn := h.reads
  have ha := h.alone
  rw [hsolid] at hn ha
  have hat : atVariable ⟨0, ⟨k, v.name⟩ :: colon :: (solid ts ++ [Lexeme.semicolon])⟩ = true := by
    have ha : afterAttributes 0 (⟨k, v.name⟩ :: colon :: (solid ts ++ [Lexeme.semicolon])) =
        ⟨k, v.name⟩ :: colon :: (solid ts ++ [Lexeme.semicolon]) := by
      cases k <;> first | rfl | cases hk
    rw [atVariable, ha]
    simp [hk, colon]
  obtain ⟨us, r, -, hm, hls, hu⟩ := made_variableDeclaration (by rintro rfl; cases hk) hn
  rw [ha] at hls
  obtain ⟨hus, hr⟩ := List.append_inj' hls rfl
  obtain rfl := List.singleton_inj.mp hr
  refine ⟨⟨k, v.name⟩, us, ts, hk, rfl, hlex, hus.symm, hus ▸ hu, by rw [declaredType, hlex]; simp, ?_,
    ⟨fun rest => ?_, fun m more => ?_⟩⟩
  · rw [hsolid, hus]
    simp [declarationTree, leaves, leavesOf]
  · have hd : (variableDeclaration.read _).made = [declarationTree ⟨k, v.name⟩ us] := hm
    rw [← hd]
    exact firm_variableDeclaration hn (Nat.lt_succ_self _) rest trivial
  · have hf := atVariable_variableDeclaration hat hn m more
    rwa [hm, leavesOf, leavesOf, List.append_nil] at hf

/-- Whatever follows the line of a variable that can be declared, the line is read as before. -/
theorem Declarable.lex_append (h : v.Declarable) (b : Text) :
    lex (v.sectionLine ++ b) = lex v.sectionLine ++ lex b := by
  obtain ⟨ls, hls⟩ := List.getLast?_eq_some_iff.mp h.closed
  have hs : v.sectionLine = (v.name ++ ": ".toList ++ v.type) ++ [';'] := rfl
  rw [hs] at hls
  rw [hs, List.append_assoc, List.singleton_append, lex_append_semicolon hls, hls, List.append_assoc]
  rfl

end Variable

end AlRefactor
