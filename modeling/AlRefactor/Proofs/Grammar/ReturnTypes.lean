import AlRefactor.Proofs.Grammar.DeclaredNames
import AlRefactor.Proofs.Grammar.Recovery

/-!
# Types of parameters as return types

A type is read the same in front of the bracket that closes the parameters and in front of a body, unless it
ends with a clause. A clause goes on up to a semicolon or a closing bracket, so in front of a body it takes the
words of the body as well.
-/

namespace AlRefactor.Grammar

open Production AlRefactor.Tree

variable {c : Cursor} {n m m' : Nat} {us more : List Lexeme}

/-! ## Types that end with a clause -/

/-- Some lexemes without brackets in front of them. -/
def behindBrackets (ls : List Lexeme) : List Lexeme :=
  if firstKind ls = .lBracket then ls.drop (balancedLength 0 ls).1 else ls

/-- Labels, text constants, options, and arrays of such types. -/
inductive EndsWithClause : List Lexeme → Prop
  | word {l : Lexeme} {ls : List Lexeme} : l.text.lower ∈ clauseWords → EndsWithClause (l :: ls)
  | element {l o : Lexeme} {ls ts : List Lexeme} : l.text.lower = "array".toList →
      behindBrackets ls = o :: ts → o.kind = .kwOf → EndsWithClause ts → EndsWithClause (l :: ls)

/-- What a type takes of what follows it, where it stands in front of that instead. -/
structure TakesBehind (ts us more : List Lexeme) : Prop where
  clause : EndsWithClause ts → clauseLength 0 (us ++ more) = us.length
  closed : ¬EndsWithClause ts → us = []

namespace TakesBehind

variable {l o : Lexeme} {ls ts : List Lexeme}

theorem of_array (h : TakesBehind (l :: ls) us more) (hw : l.text.lower = "array".toList)
    (hb : behindBrackets ls = o :: ts) (ho : o.kind = .kwOf) : TakesBehind ts us more := by
  refine ⟨fun he => h.clause (.element hw hb ho he), fun hn => h.closed fun he => ?_⟩
  cases he with
  | word hc => exact absurd hc (by rw [hw]; decide)
  | element _ hb' _ he =>
      obtain ⟨-, rfl⟩ := List.cons_eq_cons.mp (hb.symm.trans hb')
      exact hn he

theorem eq_nil (h : TakesBehind (l :: ls) us more) (hc : l.text.lower ∉ clauseWords)
    (hf : l.text.lower = "array".toList → firstKind (behindBrackets ls) ≠ .kwOf) : us = [] := by
  refine h.closed fun he => ?_
  cases he with
  | word hw => exact hc hw
  | element hw hb ho _ => exact hf hw (by rw [hb]; exact ho)

end TakesBehind

/-- Brackets, if there are any. -/
def brackets? : Production := choose (·.isAt .lBracket) balanced skip

/-- Behind brackets that are read stands what follows them. -/
theorem behindBrackets_read (hn : (brackets?.read c).problems = [])
    (hu : us <+: (brackets?.read c).rest.ahead) :
    behindBrackets (leavesOf (brackets?.read c).made ++ us) = us := by
  cases hb : c.isAt .lBracket with
  | true =>
      obtain ⟨n, ls⟩ := c
      obtain ⟨l, ls, rfl⟩ := List.exists_cons_of_ne_nil (ahead_of_isAt hb (by decide))
      have hl : l.kind = .lBracket := kind_of_isAt hb
      rw [brackets?, read_choose_of hb] at hn hu ⊢
      obtain ⟨hf, hm⟩ := read_balanced hn
      rw [hm, read_append, read_skip] at hu ⊢
      simp only [List.append_nil, rest_takes, leaves_takes] at hu ⊢
      have hlen : balancedLength 0 ((l :: ls).take (balancedLength 0 (l :: ls)).1 ++ us) =
          balancedLength 0 (l :: ls) := by
        by_cases hk : (balancedLength 0 (l :: ls)).1 < (l :: ls).length
        · exact balancedLength_closed_append 0 _ us hf hk
        · have hk := Nat.le_of_not_lt hk
          rw [List.drop_eq_nil_of_le hk, List.prefix_nil] at hu
          rw [hu, List.append_nil, List.take_of_length_le hk]
      have hpos : (balancedLength 0 (l :: ls)).1 = (balancedLength 1 ls).1 + 1 := by
        simp [balancedLength, hl]
      rw [behindBrackets, hlen, if_pos (by rw [hpos]; exact hl)]
      exact List.drop_left' (List.length_take_of_le (balancedLength_le 0 _))
  | false =>
      rw [brackets?, read_choose, if_neg (by simp [hb]), read_skip] at hu ⊢
      refine if_neg fun hk => ?_
      obtain _ | ⟨l, us⟩ := us
      · cases hk
      · obtain ⟨more, hm⟩ := hu
        obtain ⟨i, ls⟩ := c
        obtain rfl : l :: (us ++ more) = ls := hm
        rw [Cursor.isAt, Cursor.kind_mk, firstKind_cons, show l.kind = .lBracket from hk] at hb
        cases hb

/-! ## Types in front of something else -/

/-- A clause goes on with what stands behind it instead of what it ends at. -/
theorem reads_clause_behind (ha : Alike typeStop (clause.read c).rest.ahead (us ++ more))
    (hu : clauseLength 0 (us ++ more) = us.length) :
    clause.Reads ((clause.read c).made ++ us.map Tree.leaf) more := by
  rw [clause, read_look, rest_takes] at ha
  rw [clause, read_look, (made_takes _ c).1, ← List.map_append]
  refine Reads.look fun m => ?_
  have hlen : clauseLength 0 (c.ahead.take (clauseLength 0 c.ahead) ++ us ++ more) =
      (c.ahead.take (clauseLength 0 c.ahead) ++ us).length := by
    rw [List.append_assoc, List.length_append, List.length_take_of_le (clauseLength_le 0 _)]
    by_cases hk : clauseLength 0 c.ahead < c.ahead.length
    · rw [clauseLength_extend 0 _ _ hk, hu]
    · have hk := Nat.le_of_not_lt hk
      rw [List.drop_eq_nil_of_le hk] at ha
      obtain ⟨rfl, rfl⟩ := List.append_eq_nil_iff.mp (alike_nil ha)
      rw [List.append_nil, List.append_nil, List.take_of_length_le hk]
      rfl
  simp only [leavesOf_map_leaf, hlen]
  exact reads_takes _ _

/-- The word of a type, brackets behind it, and where the rest starts that the word asks for. -/
structure TypeParts (m : Nat) (c : Cursor) (l : Lexeme) (bs : List Tree) (d : Cursor) : Prop where
  isName : l.kind.isName = true
  made : ((typeUpTo (m + 1)).read c).made =
    .leaf l :: (bs ++ ((typeTail l.text.lower (typeUpTo m)).read d).made)
  problems : ((typeTail l.text.lower (typeUpTo m)).read d).problems = []
  rest : ((typeUpTo (m + 1)).read c).rest = ((typeTail l.text.lower (typeUpTo m)).read d).rest
  brackets (rest : List Lexeme) : Alike typeStop d.ahead rest → brackets?.Reads bs rest
  behind (us : List Lexeme) : us <+: d.ahead → behindBrackets (leavesOf bs ++ us) = us

theorem exists_typeParts (hn : ((typeUpTo (m + 1)).read c).problems = []) : ∃ l bs d, TypeParts m c l bs d := by
  obtain ⟨i, ls⟩ := c
  cases hk : (⟨i, ls⟩ : Cursor).kind.isName with
  | false =>
      rw [typeUpTo, read_look, hk] at hn
      cases hn
  | true =>
      obtain ⟨l, ls, rfl⟩ := List.exists_cons_of_ne_nil (ahead_of_isName hk)
      have hr : (typeUpTo (m + 1)).read ⟨i, l :: ls⟩ =
          (take ++ brackets? ++ typeTail l.text.lower (typeUpTo m)).read ⟨i, l :: ls⟩ := by
        rw [typeUpTo, read_look, if_pos hk]
        rfl
      rw [hr, read_append, read_append, read_take_cons] at hn
      obtain ⟨hb, hn⟩ := List.append_eq_nil_iff.mp hn
      refine ⟨l, (brackets?.read ⟨i + 1, ls⟩).made, (brackets?.read ⟨i + 1, ls⟩).rest, hk, ?_, hn, ?_, ?_, ?_⟩
      · rw [hr, read_append, read_append, read_take_cons]
        rfl
      · rw [hr, read_append, read_append, read_take_cons]
      · exact steady_balancedIf (fun _ _ h => h) (by decide) hb (Nat.lt_succ_self _)
      · exact fun us => behindBrackets_read hb

theorem reads_typeUpTo_succ {l : Lexeme} (hl : l.kind.isName = true) {bs ts : List Tree} {rest : List Lexeme}
    (hb : brackets?.Reads bs (leavesOf ts ++ rest)) (ht : (typeTail l.text.lower (typeUpTo m)).Reads ts rest) :
    (typeUpTo (m + 1)).Reads (.leaf l :: (bs ++ ts)) rest := by
  refine .look fun n => ?_
  rw [if_pos (show (⟨n, leavesOf (.leaf l :: (bs ++ ts)) ++ rest⟩ : Cursor).kind.isName = true from hl)]
  exact (hb.take_append l).append ht

/-- The first lexeme that is read is the next one. -/
theorem isAt_of_leaves {p : Production} {k : TokenKind} (hk : k ≠ .eof)
    (h : firstKind (leavesOf (p.read c).made) = k) : c.isAt k = true := by
  have hu := read_leaves p c
  obtain ⟨i, ls⟩ := c
  cases hs : leavesOf (p.read ⟨i, ls⟩).made with
  | nil =>
      rw [hs] at h
      exact absurd h.symm hk
  | cons l us =>
      rw [hs] at h hu
      generalize (p.read ⟨i, ls⟩).rest.ahead = more at hu
      obtain rfl : l :: (us ++ more) = ls := hu
      exact beq_iff_eq.mpr h

theorem read_typeTail_array {p : Production} {j : Nat} {o : Lexeme} (ho : o.kind = .kwOf) (os : List Lexeme) :
    (typeTail "array".toList p).read ⟨j, o :: os⟩ = (take ++ p).read ⟨j, o :: os⟩ :=
  read_choose_of (beq_iff_eq.mpr ho)

/-- What a clause word or an element type ends with is taken behind the rest of a type as well. -/
theorem reads_typeTail {word : Text} {p p' : Production} (hn : ((typeTail word p).read c).problems = [])
    (ha : Alike typeStop ((typeTail word p).read c).rest.ahead (us ++ more))
    (hc : word ∈ clauseWords → clauseLength 0 (us ++ more) = us.length)
    (he : word = "array".toList → c.isAt .kwOf = true → (p.read (take.read c).rest).problems = [] →
      p'.Reads ((p.read (take.read c).rest).made ++ us.map Tree.leaf) more)
    (hs : word ∉ clauseWords → ¬(word = "array".toList ∧ c.isAt .kwOf = true) → us = []) :
    (typeTail word p').Reads (((typeTail word p).read c).made ++ us.map Tree.leaf) more := by
  by_cases hw : word ∈ clauseWords
  · have hp (p : Production) : typeTail word p = clause := by
      simp only [clauseWords, List.mem_cons, List.not_mem_nil, or_false] at hw
      rcases hw with rfl | rfl | rfl <;> rfl
    rw [hp] at ha
    rw [hp p, hp p']
    exact reads_clause_behind ha (hc hw)
  by_cases hf : word = "array".toList ∧ c.isAt .kwOf = true
  · obtain ⟨rfl, hof⟩ := hf
    obtain ⟨i, ls⟩ := c
    obtain ⟨l, ls, rfl⟩ := List.exists_cons_of_ne_nil (ahead_of_isAt hof (by decide))
    have hl : l.kind = .kwOf := kind_of_isAt hof
    rw [read_typeTail_array hl, read_append, read_take_cons] at hn ⊢
    exact .choose_true (fun _ => beq_iff_eq.mpr hl) ((he rfl hof hn).take_append l)
  · obtain rfl := hs hw hf
    rw [List.map_nil, List.append_nil]
    exact steady_typeTail (fun _ _ h => h) word (fun h => absurd h hw) (fun h h' => absurd ⟨h, h'⟩ hf)
      hn (Nat.lt_succ_self _) _ ha

/-- A type is read in front of something else, and takes of it what its clause goes on with. -/
theorem reads_typeUpTo (hm : n ≤ m) (hm' : n ≤ m') (hn : ((typeUpTo m).read c).problems = [])
    (hl : (leavesOf ((typeUpTo m).read c).made).length < n)
    (ha : Alike typeStop ((typeUpTo m).read c).rest.ahead (us ++ more))
    (ht : TakesBehind (leavesOf ((typeUpTo m).read c).made) us more) :
    (typeUpTo m').Reads (((typeUpTo m).read c).made ++ us.map Tree.leaf) more := by
  induction n generalizing m m' c with
  | zero => exact absurd hl (Nat.not_lt_zero _)
  | succ n ih =>
      obtain ⟨m, rfl⟩ := Nat.exists_eq_succ_of_ne_zero (Nat.ne_zero_of_lt hm)
      obtain ⟨m', rfl⟩ := Nat.exists_eq_succ_of_ne_zero (Nat.ne_zero_of_lt hm')
      obtain ⟨l, bs, d, hp⟩ := exists_typeParts hn
      have hu := read_leaves (typeTail l.text.lower (typeUpTo m)) d
      have hbehind := hp.behind _ ⟨_, hu⟩
      rw [hp.rest] at ha
      rw [hp.made] at hl ht ⊢
      have ht : TakesBehind (l :: (leavesOf bs ++
          leavesOf ((typeTail l.text.lower (typeUpTo m)).read d).made)) us more := by
        simpa [leavesOf, leaves, leavesOf_append] using ht
      have htail : (typeTail l.text.lower (typeUpTo m')).Reads
          (((typeTail l.text.lower (typeUpTo m)).read d).made ++ us.map Tree.leaf) more := by
        refine reads_typeTail hp.problems ha (fun h => ht.clause (.word h)) (fun hw hof hn' => ?element)
          fun hw hf => ?closed
        case element =>
          -- The element type has fewer lexemes than the array, so its bound is not reached either.
          obtain ⟨j, os⟩ := d
          obtain ⟨o, os, rfl⟩ := List.exists_cons_of_ne_nil (ahead_of_isAt hof (by decide))
          have ho : o.kind = .kwOf := kind_of_isAt hof
          rw [hw, read_typeTail_array ho, read_append, read_take_cons] at hl ht ha hbehind
          refine ih (by omega) (by omega) hn' ?_ ha (ht.of_array hw hbehind ho)
          simp only [read_take_cons, leavesOf, leaves, leavesOf_append, List.length_append,
            List.length_cons] at hl ⊢
          omega
        case closed =>
          refine ht.eq_nil hw fun hw hk => hf ⟨hw, ?_⟩
          rw [hbehind] at hk
          exact isAt_of_leaves (by decide) hk
      rw [List.cons_append, List.append_assoc]
      refine reads_typeUpTo_succ hp.isName (hp.brackets _ ?_) htail
      rw [leavesOf_append, leavesOf_map_leaf, List.append_assoc, ← hu]
      exact Stacks.append _ ha

/-- A type without a problem is made of words. -/
theorem exists_words (hn : (typeReference.read c).problems = []) : ∃ ls : List Lexeme,
    (typeReference.read c).made = [.node NodeKind.typeReference (ls.map Tree.leaf)] := by
  rw [typeReference, read_node, read_look] at hn ⊢
  obtain ⟨ls, hls⟩ := exists_leaves_of_tokens (yieldsTokens_typeUpTo _) hn
  exact ⟨ls, by rw [hls]⟩

/-- A type is read in front of something else, and takes of it what its clause goes on with. -/
theorem reads_typeReference {ts : List Tree} (hn : (typeReference.read c).problems = [])
    (hm : (typeReference.read c).made = [.node NodeKind.typeReference ts])
    (ha : Alike typeStop (typeReference.read c).rest.ahead (us ++ more)) (ht : TakesBehind (leavesOf ts) us more) :
    typeReference.Reads [.node NodeKind.typeReference (ts ++ us.map Tree.leaf)] more := by
  rw [typeReference, read_node, read_look] at hn hm ha
  have hm : ((typeUpTo (c.ahead.length + 1)).read c).made = ts := by simpa using hm
  have hu := congrArg List.length (read_leaves (typeUpTo (c.ahead.length + 1)) c)
  rw [hm, List.length_append] at hu
  refine .node _ (.look fun k => ?_)
  rw [← hm] at ht ⊢
  refine reads_typeUpTo (n := (leavesOf ts).length + 1) (by omega) ?_ hn (by rw [hm]; omega) ha ht
  rw [hm, leavesOf_append]
  simp

/-! ## A file with a parameter of a type -/

/-- What is made and noted first. -/
structure StartsWith (p : Production) (c : Cursor) (ts : List Tree) (ps : List (Problem × Nat)) : Prop where
  made : ts <+: (p.read c).made
  problems : ps <+: (p.read c).problems

namespace StartsWith

variable {p q : Production} {ts us : List Tree} {ps : List (Problem × Nat)} {d : Cursor} {b : Bool}

theorem self : StartsWith p c (p.read c).made (p.read c).problems := ⟨List.prefix_rfl, List.prefix_rfl⟩

theorem congr (h : StartsWith p c ts ps) (hr : q.read c = p.read c) : StartsWith q c ts ps :=
  ⟨hr ▸ h.made, hr ▸ h.problems⟩

theorem append (h : StartsWith p c ts ps) : StartsWith (p ++ q) c ts ps := by
  constructor <;> rw [read_append]
  · exact h.made.trans (List.prefix_append _ _)
  · exact h.problems.trans (List.prefix_append _ _)

/-- Behind what is read without a problem. -/
theorem behind (h : p.read c = ⟨us, b, [], d⟩) (hq : StartsWith q d ts ps) :
    StartsWith (p ++ q) c (us ++ ts) ps := by
  constructor
  · rw [read_append, h]
    exact (List.prefix_append_right_inj us).mpr hq.made
  · rw [read_append, h]
    exact hq.problems

theorem choose {test : Cursor → Bool} (ht : test c = true) (h : StartsWith p c ts ps) :
    StartsWith (choose test p q) c ts ps :=
  h.congr (read_choose_of ht)

theorem mark {kind : Cursor → Kind} (h : p.read c = ⟨us, b, [], d⟩) (hq : StartsWith q d ts ps) :
    ∃ more, StartsWith (mark p kind q) c [.node (kind d) (us ++ ts ++ more)] ps := by
  obtain ⟨more, hm⟩ := hq.made
  refine ⟨more, ?_, ?_⟩
  · rw [read_mark, h, List.append_assoc, hm]
  · rw [read_mark, h]
    exact hq.problems

theorem node (k : Kind) (h : StartsWith p c ts ps) :
    ∃ more, StartsWith (node k p) c [.node k (ts ++ more)] ps := by
  obtain ⟨more, hm⟩ := h.made
  refine ⟨more, ?_, ?_⟩
  · rw [read_node, hm]
  · rw [read_node]
    exact h.problems

end StartsWith

/-- `codeunit 1 X \x7b procedure P` -/
def named : List Lexeme := opened.take 5 ++ [⟨.ident, ['P']⟩]

/-- `begin end; \x7d` -/
def closed : List Lexeme :=
  [⟨.kwBegin, "begin".toList⟩, ⟨.kwEnd, "end".toList⟩, ⟨.semicolon, [';']⟩, ⟨.rBrace, ['\x7d']⟩]

/-- `codeunit 1 X \x7b procedure P(x: T) begin end; \x7d` -/
def parameterFile (ts : List Lexeme) : List Lexeme :=
  named ++ ⟨.lParen, ['(']⟩ :: ⟨.ident, ['x']⟩ :: ⟨.colon, [':']⟩ :: (ts ++ ⟨.rParen, [')']⟩ :: closed)

/-- `codeunit 1 X \x7b procedure P(): T begin end; \x7d` -/
def returnFile (ts : List Lexeme) : List Lexeme :=
  named ++ ⟨.lParen, ['(']⟩ :: ⟨.rParen, [')']⟩ :: ⟨.colon, [':']⟩ :: (ts ++ closed)

/-- The first parameter of a procedure starts with its name and its type. -/
theorem startsWith_parameterList (n : Nat) (ls : List Lexeme) : ∃ as bs,
    StartsWith parameterList ⟨n, ⟨.lParen, ['(']⟩ :: ⟨.ident, ['x']⟩ :: ⟨.colon, [':']⟩ :: ls⟩
      [.node NodeKind.parameterList (.leaf ⟨.lParen, ['(']⟩ ::
        .node NodeKind.parameter (.identifier ⟨.ident, ['x']⟩ :: .leaf ⟨.colon, [':']⟩ ::
          ((typeReference.read ⟨n + 3, ls⟩).made ++ as)) :: bs)] (typeReference.read ⟨n + 3, ls⟩).problems := by
  have hx (more : List Lexeme) : (takeIf .kwVar ++ nameOr .missingParameterName).read
      ⟨n + 1, ⟨.ident, ['x']⟩ :: more⟩ = ⟨[.identifier ⟨.ident, ['x']⟩], false, [], ⟨n + 2, more⟩⟩ := rfl
  have ht : StartsWith typed ⟨n + 2, ⟨.colon, [':']⟩ :: ls⟩
      (.leaf ⟨.colon, [':']⟩ :: (typeReference.read ⟨n + 3, ls⟩).made) (typeReference.read ⟨n + 3, ls⟩).problems :=
    .choose rfl (.behind (read_take_cons ..) .self)
  obtain ⟨as, hp⟩ := (StartsWith.behind (hx _) ht).node NodeKind.parameter
  have hl : StartsWith (choose atParameter parameters noParameter) _ _ _ := .choose rfl (.append (.append hp))
  have hr := (StartsWith.behind (read_take_cons n ⟨.lParen, ['(']⟩ _) hl).append (q := require .rParen)
  obtain ⟨bs, hl⟩ := hr.node NodeKind.parameterList
  exact ⟨as, bs, hl⟩

/-- A file starts with its only object, and this with its procedure, whose parameters come first. -/
theorem startsWith_declarations {ls : List Lexeme} {t : Tree} {ps : List (Problem × Nat)}
    (h : StartsWith parameterList ⟨6, ⟨.lParen, ['(']⟩ :: ls⟩ [t] ps) : ∃ cs ds,
    StartsWith declarations ⟨0, named ++ ⟨.lParen, ['(']⟩ :: ls⟩
      [.node NodeKind.codeunitObject ([.leaf ⟨.ident, "codeunit".toList⟩,
        .node NodeKind.objectId [.leaf ⟨.intLiteral, ['1']⟩], .identifier ⟨.ident, ['X']⟩,
        .leaf ⟨.lBrace, ['\x7b']⟩, .node NodeKind.methodDeclaration ([.leaf ⟨.kwProcedure, "procedure".toList⟩,
          .identifier ⟨.ident, ['P']⟩, t] ++ cs)] ++ ds)] ps := by
  have hn (ls : List Lexeme) : (nameOr .missingProcedureName).read ⟨5, ⟨.ident, ['P']⟩ :: ls⟩ =
      ⟨[.identifier ⟨.ident, ['P']⟩], true, [], ⟨6, ls⟩⟩ := rfl
  have hs (ls : List Lexeme) : methodStart.read ⟨4, ⟨.kwProcedure, "procedure".toList⟩ :: ls⟩ =
      ⟨[], false, [], ⟨4, ⟨.kwProcedure, "procedure".toList⟩ :: ls⟩⟩ := rfl
  have hp : StartsWith (choose (·.isAt .lParen) parameterList (report (.missing .lParen))) _ [t] ps :=
    .choose rfl h
  have hr : StartsWith methodRest _ _ ps := (StartsWith.behind (hn _) hp).append.append.append.append
  have ht : StartsWith methodTail _ _ ps :=
    .choose rfl (.behind (read_take_cons 4 ⟨.kwProcedure, "procedure".toList⟩ _) hr)
  obtain ⟨cs, hm⟩ : ∃ cs, StartsWith method _ [.node NodeKind.methodDeclaration
      ([.leaf ⟨.kwProcedure, "procedure".toList⟩, .identifier ⟨.ident, ['P']⟩, t] ++ cs)] ps :=
    StartsWith.mark (hs _) ht
  have hms : StartsWith (whileAt goesOn member) _ _ ps := hm.append.congr (read_members_round 4 _ _)
  have hl : StartsWith (memberList member) _ _ ps :=
    .choose rfl (.behind (read_take_cons 3 ⟨.lBrace, ['\x7b']⟩ _) hms.append)
  obtain ⟨ds, ho⟩ := (StartsWith.behind (read_header 0 ['1'] ['X'] ['\x7b'] _) hl).node NodeKind.codeunitObject
  have hd : StartsWith declaration _ _ ps := ho.congr (read_declaration 0 _)
  exact ⟨cs, ds, hd.append.congr (read_whileAt_round (fun c hc => (leads_declaration fun ha => by
    simp [Cursor.atEnd, ha] at hc).opens.lt) rfl)⟩

/-! ## A file with a return value of a type -/

/-- A procedure without parameters that returns a value of a type, and what follows that. -/
def returning (ts us : List Tree) : Tree :=
  .node NodeKind.methodDeclaration
    (.leaf ⟨.kwProcedure, "procedure".toList⟩ :: .identifier ⟨.ident, ['P']⟩ ::
      .node NodeKind.parameterList [.leaf ⟨.lParen, ['(']⟩, .leaf ⟨.rParen, [')']⟩] ::
      .node NodeKind.returnValue [.leaf ⟨.colon, [':']⟩, .node NodeKind.typeReference ts] :: us)

/-- A return value, and behind it a semicolon or a body. -/
theorem reads_returning {ts os bs : List Tree} {rest : List Lexeme}
    (hr : typeReference.Reads [.node NodeKind.typeReference ts] (leavesOf (os ++ bs) ++ rest))
    (ho : (takeIf .semicolon).Reads os (leavesOf bs ++ rest))
    (hv : (choose (·.isAt .kwVar) (varSection .varSection) skip).Reads [] (leavesOf bs ++ rest))
    (hb : (choose (·.isAt .kwBegin) (block ++ takeIf .semicolon) skip).Reads bs rest) :
    method.Reads [returning ts (os ++ bs)] rest := by
  have hc : (choose (·.kind.isName) name skip ++ take).Reads [.leaf ⟨.colon, [':']⟩]
      (leavesOf [.node NodeKind.typeReference ts] ++ (leavesOf (os ++ bs) ++ rest)) :=
    .append (reads_nothing fun _ => rfl) (reads_take _ _)
  have hr : (choose atReturnValue returnValue skip).Reads _ (leavesOf (os ++ bs) ++ rest) :=
    .choose_true (fun _ => rfl) ((hc.append hr).node NodeKind.returnValue)
  have hp : (choose (·.isAt .lParen) parameterList (report (.missing .lParen))).Reads _
      (leavesOf [.node NodeKind.returnValue [.leaf ⟨.colon, [':']⟩, .node NodeKind.typeReference ts]] ++
        (leavesOf (os ++ bs) ++ rest)) := .choose_true (fun _ => rfl) (reads_parameterList _)
  rw [leavesOf_append, List.append_assoc] at hr hp
  have hn := ((reads_nameOr (l := ⟨.ident, ['P']⟩) rfl .missingProcedureName _).append hp).append hr
  have hm := ((hn.append ho).append_nothing hv).append hb
  rw [List.append_assoc] at hm
  have ht : methodTail.Reads (.leaf ⟨.kwProcedure, "procedure".toList⟩ :: .identifier ⟨.ident, ['P']⟩ :: _) rest :=
    .choose_true (fun _ => rfl) (hm.take_append _)
  refine (reads_methodStart "procedure".toList _).mark (fun _ => ?_) ht
  rfl

section Return

variable {ts : List Tree} {w : Text} {ls : List Lexeme} (hn : (typeReference.read c).problems = [])
  (hm : (typeReference.read c).made = [.node NodeKind.typeReference ts])
  (hr : (typeReference.read c).rest.ahead = ⟨.rParen, w⟩ :: ls)
include hn hm hr

/-- A type that does not end with a clause is one in front of a body as well. -/
theorem reads_returnFile (ht : ¬EndsWithClause (leavesOf ts)) :
    declarations.Reads [codeunit (returning ts [.block "begin".toList [] "end".toList, semicolon])] [] := by
  refine reads_codeunit rfl (by decide) (reads_member rfl ?_)
  let bs := [Tree.block "begin".toList [] "end".toList, semicolon]
  let rest : List Lexeme := [⟨.rBrace, ['\x7d']⟩]
  have hb : (choose (·.isAt .kwBegin) (block ++ takeIf .semicolon) skip).Reads bs rest :=
    .choose_true (fun _ => rfl) ((reads_body (List.forall_mem_nil _) _).append
      (.choose_true (fun _ => rfl) (reads_take _ rest)))
  have ha : Alike typeStop (typeReference.read c).rest.ahead ([] ++ (leavesOf bs ++ rest)) := by
    rw [hr]
    rfl
  have ht := reads_typeReference hn hm ha ⟨fun h => absurd h ht, fun _ => rfl⟩
  rw [List.map_nil, List.append_nil] at ht
  show method.Reads [returning ts ([] ++ bs)] rest
  exact reads_returning ht (reads_nothing fun _ => rfl) (reads_nothing fun _ => rfl) hb

/-- A type that ends with a clause takes the body, so the procedure is left without one. -/
theorem reads_returnFile_clause (ht : EndsWithClause (leavesOf ts)) : declarations.Reads [codeunit (returning
    (ts ++ (closed.take 2).map Tree.leaf) [semicolon])] [] := by
  refine reads_codeunit rfl (by decide) (reads_member rfl ?_)
  let rest : List Lexeme := [⟨.rBrace, ['\x7d']⟩]
  have ha : Alike typeStop (typeReference.read c).rest.ahead (closed.take 2 ++ (leavesOf [semicolon] ++ rest)) := by
    rw [hr]
    rfl
  have ht := reads_typeReference hn hm ha ⟨fun _ => rfl, fun h => absurd ht h⟩
  show method.Reads [returning _ ([semicolon] ++ [])] rest
  exact reads_returning ht (.choose_true (fun _ => rfl) (reads_take _ rest)) (reads_nothing fun _ => rfl)
    (reads_nothing fun _ => rfl)

end Return

end AlRefactor.Grammar
