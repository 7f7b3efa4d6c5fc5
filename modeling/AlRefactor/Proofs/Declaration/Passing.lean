import AlRefactor.Proofs.Declaration.Line
import AlRefactor.Proofs.Grammar.Parameters

/-!
# Variables as parameters

A variable is passed as `name: Type`, perhaps with the word `var` in front. Where the type is read up to the
semicolon or the bracket behind it, this is read as one parameter wherever it stands in a list.
-/

namespace AlRefactor

open AlRefactor.Tree Lexeme Grammar Production

namespace Lexeme

variable {t : Text}

/-- What starts with a token does not start with a blank. -/
theorem not_isBlank_of_leads (h : Leads (lex t)) : ∀ c ∈ t.head?, isBlank c = false := by
  cases t with
  | nil => exact fun _ hc => by cases hc
  | cons d u =>
      intro c hc
      obtain rfl : d = c := Option.some.inj hc
      obtain ⟨l, ms, hl, hs⟩ := h
      rw [lex_cons] at hl
      obtain ⟨rfl, -⟩ := List.cons.inj hl
      by_contra hb
      rw [Bool.not_eq_false] at hb
      have hk : (scan d u).1 = .whitespace := by unfold scan; rw [if_pos hb]
      rw [isSignificant, hk] at hs
      cases hs

/-- A single blank between tokens. -/
def blank : Lexeme := ⟨.whitespace, [' ']⟩

theorem lex_blank (h : Leads (lex t)) : lex (' ' :: t) = blank :: lex t :=
  lex_blanks (u := [' ']) (fun c hc => by rw [List.mem_singleton.mp hc]; rfl) (List.cons_ne_nil _ _)
    (not_isBlank_of_leads h)

end Lexeme

namespace Variable

variable {v : Variable} {l : Lexeme} {us : List Tree}

/-- A variable that can be a parameter: the name is an identifier, and the type, which starts and ends with
tokens of its own, is read as one up to what stands behind it. -/
structure Passable (v : Variable) : Prop where
  identifier : v.name.isIdentifier
  leads : Leads (lex v.type)
  closes : ∃ ms l, lex v.type = ms ++ [l] ∧ l.isSignificant ∧ l.kind ≠ .error
  reads : (typeReference.read ⟨0, solid (lex v.type) ++ [Lexeme.semicolon]⟩).problems = []
  alone : (typeReference.read ⟨0, solid (lex v.type) ++ [Lexeme.semicolon]⟩).rest.ahead = [Lexeme.semicolon]

/-- The word in front of a parameter that is passed by reference. -/
def word (v : Variable) : List Lexeme := if v.byReference then [⟨.kwVar, "var".toList⟩] else []

/-- A parameter with a name and a type. -/
def parameterTree (v : Variable) (name : Lexeme) (type : List Tree) : Tree :=
  .node NodeKind.parameter (v.word.map .leaf ++
    [.node NodeKind.identifierName [.leaf name], .leaf colon, .node NodeKind.typeReference type])

/-- A variable as a parameter: as its tokens, and as a tree. -/
structure Passed (v : Variable) (name : Lexeme) (type : List Tree) : Prop where
  isName : name.kind.isName
  text : name.text = v.name
  lexemes : lex v.declaration =
    (if v.byReference then [⟨.kwVar, "var".toList⟩, blank] else []) ++ name :: colon :: blank :: lex v.type
  leavesOf : leavesOf type = solid (lex v.type)
  passes : Passes (v.parameterTree name type)

/-- The tokens of a parameter. -/
theorem Passable.exists_lexemes (h : v.Passable) : ∃ l : Lexeme, l.kind.isName ∧ l.text = v.name ∧
    lex v.declaration =
      (if v.byReference then [⟨.kwVar, "var".toList⟩, blank] else []) ++ l :: colon :: blank :: lex v.type := by
  obtain ⟨k, hk, hname⟩ := lex_append_colon h.identifier
  refine ⟨⟨k, v.name⟩, hk, rfl, ?_⟩
  have hplain : lex (v.name ++ ':' :: ' ' :: v.type) = ⟨k, v.name⟩ :: colon :: blank :: lex v.type := by
    rw [hname, lex_colon_blank, lex_blank h.leads]
    rfl
  have hdecl : v.declaration =
      (if v.byReference then "var ".toList else []) ++ (v.name ++ ':' :: ' ' :: v.type) := by
    rw [declaration]
    split <;> simp
  rw [hdecl]
  cases v.byReference with
  | false => exact hplain
  | true =>
      have hvar : lex ("var".toList ++ []) = [⟨.kwVar, "var".toList⟩] ++ [] := by decide +kernel
      have hlead : Leads (lex (v.name ++ ':' :: ' ' :: v.type)) :=
        ⟨_, _, hplain, isSignificant_of_isName (l := ⟨k, v.name⟩) hk⟩
      have hfree : Frees [⟨.kwVar, "var".toList⟩] [] ' ' := .closed (List.nil_append _).symm rfl (by decide)
      have hjoin := lex_append_separator hvar rfl hfree
        (show isSeparator ' ' by decide) (fun hd => by cases hd) (v.name ++ ':' :: ' ' :: v.type)
      rw [lex_blank hlead, hplain] at hjoin
      exact hjoin

theorem Passable.exists_passed (h : v.Passable) : ∃ (l : Lexeme) (us : List Tree), v.Passed l us := by
  obtain ⟨l, hk, hn, hlex⟩ := h.exists_lexemes
  have hread := h.reads
  have hleaves := read_leaves typeReference ⟨0, solid (lex v.type) ++ [Lexeme.semicolon]⟩
  have hsteady := steady_typeReference ⟨0, solid (lex v.type) ++ [Lexeme.semicolon]⟩ hread (Nat.lt_succ_self _)
  obtain ⟨us, hm⟩ : ∃ us, (typeReference.read ⟨0, solid (lex v.type) ++ [Lexeme.semicolon]⟩).made =
      [.node NodeKind.typeReference us] := by
    rw [typeReference, Production.read_node]
    exact ⟨_, rfl⟩
  rw [h.alone, hm] at hleaves hsteady
  have hus : Tree.leavesOf us = solid (lex v.type) := by
    have := List.append_cancel_right hleaves
    rwa [Tree.leavesOf, Tree.leaves, Tree.leavesOf, List.append_nil] at this
  refine ⟨l, us, hk, hn, hlex, hus, ⟨fun {rest} hr => ?_, fun m more => ?_⟩⟩
  · have htype : typeReference.Reads [.node NodeKind.typeReference us] rest :=
      hsteady rest (EndsParameter.alike ⟨_, [], rfl, .inl rfl⟩ hr)
    have hname : (nameOr .missingParameterName).Reads [.node NodeKind.identifierName [.leaf l]]
        (Tree.leavesOf [.leaf colon, .node NodeKind.typeReference us] ++ rest) :=
      .choose_true (fun m => hk) ((reads_take l _).node _)
    have hword : (takeIf .kwVar).Reads (v.word.map .leaf) (Tree.leavesOf ([.node NodeKind.identifierName [.leaf l]] ++
        [.leaf colon, .node NodeKind.typeReference us]) ++ rest) := by
      rw [word]
      split
      · exact .choose_true (fun _ => rfl) (reads_take _ _)
      · exact reads_nothing fun _ => by
          cases hl : l.kind <;> simp_all [Cursor.isAt, Tree.leavesOf, Tree.leaves, TokenKind.isName]
    exact (Reads.assoc (hword.append (hname.append (htype.requireThen .colon [':'])))).node _
  · rw [parameterTree, word, atParameter]
    split
    · rfl
    · simp [Tree.leavesOf, Tree.leaves, Cursor.isAt, Cursor.kind, Cursor.peek, hk]

/-- The tree has the tokens of the declaration. -/
theorem Passed.leaves (h : v.Passed l us) : (v.parameterTree l us).leaves = solid (lex v.declaration) := by
  rw [h.lexemes, solid_append, solid_cons (isSignificant_of_isName h.isName), solid_cons rfl]
  show _ = _ ++ l :: colon :: solid (lex v.type)
  rw [← h.leavesOf, parameterTree, word]
  cases v.byReference <;> simp [Tree.leaves, Tree.leavesOf] <;> rfl

theorem Passed.leads (h : v.Passed l us) : Leads (lex v.declaration) := by
  rw [h.lexemes]
  split
  · exact ⟨_, _, rfl, rfl⟩
  · exact ⟨_, _, rfl, isSignificant_of_isName h.isName⟩

/-- The tokens of a parameter from its name on. -/
theorem Passed.exists_front (h : v.Passed l us) {t : Text} {A C : List Lexeme}
    (hx : lex t = A ++ (lex v.declaration ++ C)) :
    ∃ B, lex t = B ++ (l :: colon :: blank :: (lex v.type ++ C)) ∧
      (solid B).length = (solid A).length + (Tree.leavesOf (v.word.map .leaf)).length := by
  rw [h.lexemes] at hx
  rw [word]
  split at hx
  · refine ⟨A ++ [⟨.kwVar, "var".toList⟩, blank], by rw [hx]; simp, ?_⟩
    rw [solid_append, if_pos ‹_›, List.length_append]
    rfl
  · exact ⟨A, by rw [hx]; simp, by rw [if_neg ‹_›]; rfl⟩

/-! ## Several of them -/

section

variable {vs : List Variable} {qs : List Tree} {d : Char}

/-- What goes behind a parameter for each further one. -/
def furtherText (vs : List Variable) : Text := vs.flatMap fun v => "; " ++ v.declaration

def furtherLexemes (vs : List Variable) : List Lexeme :=
  vs.flatMap fun v => Lexeme.semicolon :: blank :: lex v.declaration

@[simp] theorem furtherText_cons (v : Variable) (vs : List Variable) :
    furtherText (v :: vs) = ';' :: ' ' :: (v.declaration ++ furtherText vs) := rfl

@[simp] theorem furtherLexemes_cons (v : Variable) (vs : List Variable) :
    furtherLexemes (v :: vs) = Lexeme.semicolon :: blank :: (lex v.declaration ++ furtherLexemes vs) := rfl

theorem parameterList_cons (v : Variable) (vs : List Variable) :
    parameterList (v :: vs) = v.declaration ++ furtherText vs := by
  induction vs generalizing v with
  | nil => exact (List.append_nil _).symm
  | cons w vs ih =>
      have ih : Text.join "; " ((w :: vs).map declaration) = _ := ih w
      rw [parameterList, List.map_cons, List.map_cons, Text.join, ← List.map_cons, ih, furtherText_cons,
        List.append_assoc]
      rfl

theorem separated_parameterList (h : vs ≠ []) : "; " ++ parameterList vs = furtherText vs := by
  obtain ⟨v, vs, rfl⟩ := List.exists_cons_of_ne_nil h
  rw [parameterList_cons]
  rfl

/-- Behind the last token of a parameter a separator may follow, unless two slashes would meet. -/
theorem Passable.lex_append (h : v.Passable) (hd : isSeparator d)
    (hs : d = '/' → v.declaration.getLast? ≠ some '/') (w : Text) :
    lex (v.declaration ++ d :: w) = lex v.declaration ++ lex (d :: w) := by
  obtain ⟨l, -, -, hlex⟩ := h.exists_lexemes
  obtain ⟨ms, z, hz, hzs, hze⟩ := h.closes
  rw [hz] at hlex
  refine lex_append_separator (v := []) (M := []) (by simp) (flatMap_text_lex _) ?_ hd hs w
  have hdecl : lex v.declaration = ((if v.byReference then [⟨.kwVar, "var".toList⟩, blank] else []) ++
      l :: colon :: blank :: ms) ++ [z] := by
    rw [hlex]
    simp
  exact .closed hdecl hzs hze

theorem getLast?_append_of {a b : Text} {c : Char} (h : b.getLast? = some c) : (a ++ b).getLast? = some c := by
  rw [List.getLast?_append, h, Option.some_or]

theorem furtherText_append (vs : List Variable) (d : Char) (w : Text) :
    ∃ d' w', furtherText vs ++ d :: w = d' :: w' ∧ (d' = d ∧ vs = [] ∨ d' = ';') := by
  cases vs with
  | nil => exact ⟨d, w, rfl, .inl ⟨rfl, rfl⟩⟩
  | cons v vs => exact ⟨';', _, rfl, .inr rfl⟩

/-- The tokens of further parameters. -/
theorem lex_furtherText (h : ∀ v ∈ vs, v.Passable) (hd : isSeparator d)
    (hs : d = '/' → (furtherText vs).getLast? ≠ some '/') (w : Text) :
    lex (furtherText vs ++ d :: w) = furtherLexemes vs ++ lex (d :: w) := by
  induction vs with
  | nil => rfl
  | cons v vs ih =>
      obtain ⟨hv, hvs⟩ := List.forall_mem_cons.mp h
      obtain ⟨l, us, hp⟩ := hv.exists_passed
      have hrest := ih hvs fun he hl => hs he (getLast?_append_of (a := ';' :: ' ' :: v.declaration) hl)
      have hone : lex (v.declaration ++ (furtherText vs ++ d :: w)) =
          lex v.declaration ++ lex (furtherText vs ++ d :: w) := by
        obtain ⟨d', w', hw, hd'⟩ := furtherText_append vs d w
        rw [hw]
        refine hv.lex_append ?_ (fun he hl => ?_) w'
        · rcases hd' with ⟨rfl, -⟩ | rfl
          · exact hd
          · rfl
        · rcases hd' with ⟨rfl, rfl⟩ | rfl
          · exact hs he (getLast?_append_of (a := [';', ' ']) (by simpa [furtherText] using hl))
          · cases he
      have hlead : Leads (lex (v.declaration ++ (furtherText vs ++ d :: w))) := by
        obtain ⟨z, zs, hz, hzs⟩ := hp.leads
        exact ⟨z, _, by rw [hone, hz]; rfl, hzs⟩
      rw [furtherText_cons, List.cons_append, List.cons_append, List.append_assoc, lex_semicolon, lex_blank hlead,
        hone, hrest]
      simp

/-- The tokens of some parameters. -/
theorem lex_parameterList (h : ∀ u ∈ v :: vs, u.Passable) (hd : isSeparator d)
    (hs : d = '/' → (parameterList (v :: vs)).getLast? ≠ some '/') (w : Text) :
    lex (parameterList (v :: vs) ++ d :: w) = (lex v.declaration ++ furtherLexemes vs) ++ lex (d :: w) := by
  obtain ⟨hv, hvs⟩ := List.forall_mem_cons.mp h
  rw [parameterList_cons] at hs ⊢
  obtain ⟨d', w', hw, hd'⟩ := furtherText_append vs d w
  have hrest := lex_furtherText hvs hd (fun he hl => hs he (getLast?_append_of hl)) w
  rw [List.append_assoc, List.append_assoc, ← hrest, hw]
  refine hv.lex_append ?_ (fun he hl => ?_) w'
  · rcases hd' with ⟨rfl, -⟩ | rfl
    · exact hd
    · rfl
  · rcases hd' with ⟨rfl, rfl⟩ | rfl
    · exact hs he (by simpa [furtherText] using hl)
    · cases he

/-- The tree of a variable as a parameter. -/
def PassedAs (v : Variable) (q : Tree) : Prop := ∃ l us, v.Passed l us ∧ q = v.parameterTree l us

theorem exists_passedAs (h : ∀ v ∈ vs, v.Passable) : ∃ qs, List.Forall₂ PassedAs vs qs := by
  induction vs with
  | nil => exact ⟨[], .nil⟩
  | cons v vs ih =>
      obtain ⟨hv, hvs⟩ := List.forall_mem_cons.mp h
      obtain ⟨l, us, hp⟩ := hv.exists_passed
      obtain ⟨qs, hqs⟩ := ih hvs
      exact ⟨_ :: qs, .cons ⟨l, us, hp, rfl⟩ hqs⟩

theorem passes_of_passedAs (h : List.Forall₂ PassedAs vs qs) : ∀ q ∈ qs, Passes q := by
  induction h with
  | nil => exact fun _ hq => absurd hq List.not_mem_nil
  | cons hp _ ih =>
      obtain ⟨l, us, hp, rfl⟩ := hp
      exact List.forall_mem_cons.mpr ⟨hp.passes, ih⟩

theorem PassedAs.leaves {q : Tree} (h : PassedAs v q) : q.leaves = solid (lex v.declaration) := by
  obtain ⟨l, us, hp, rfl⟩ := h
  exact hp.leaves

theorem leavesOf_separated (h : List.Forall₂ PassedAs vs qs) :
    Tree.leavesOf (separated qs) = solid (furtherLexemes vs) := by
  induction h with
  | nil => rfl
  | @cons v q vs qs hp _ ih =>
      rw [separated_cons, leavesOf_append, ih, furtherLexemes_cons, solid_cons rfl]
      show _ = _ :: solid (lex v.declaration ++ furtherLexemes vs)
      simp [Tree.leavesOf, Tree.leaves, hp.leaves, solid_append]

end

end Variable

end AlRefactor
