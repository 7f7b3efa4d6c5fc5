import AlRefactor.Proofs.Action.Bounds
import AlRefactor.Proofs.Declaration.Brackets
import AlRefactor.Proofs.Declaration.Names
import AlRefactor.Proofs.Syntax.Pieces
import AlRefactor.Proofs.Text.Trimming
import AlRefactor.Proofs.Token.Names

/-!
# Types read from their texts

The word of a type and the object that it names are read from the text of the type, by white space and
brackets. They are the first two tokens of the type where white space, and nothing else, keeps these apart
from each other and from what follows. A comment or a byte order mark next to them, a name in quotes that
follows at once and white space in the quotes of the first name are read otherwise.
-/

namespace AlRefactor

open Lexeme SyntaxTree

namespace Text

variable {a b g m r s t : Text}

/-! ## Words -/

/-- A character of the word of a type. -/
def inTypeWord (c : Char) : Bool := c != '[' && !isSpace c

theorem inTypeWord_of_isNamePart {c : Char} (h : isNamePart c) : inTypeWord c := by
  have hb : c ≠ '[' := fun hb => absurd h (by rw [hb]; decide)
  simp [inTypeWord, hb, not_isSpace_of_isNamePart h]

/-- The word of a type ends in front of the text. -/
def EndsTypeWord (t : Text) : Prop := ∀ c ∈ t.head?, inTypeWord c = false

theorem Tight.typeWord_append (h : a.Tight) :
    (a ++ s).typeWord = a ↔ (∀ c ∈ a, inTypeWord c) ∧ s.EndsTypeWord := by
  obtain ⟨m, v, hv, rfl, ht⟩ := h.exists_trim_append s
  rw [EndsTypeWord, head_append_blank hv fun c hc => by simp [inTypeWord, hc], ← takeWhile_eq_iff, typeWord, ht]
  rfl

theorem Tight.typeWord_eq (h : a.Tight) : a.typeWord = a ↔ ∀ c ∈ a, inTypeWord c := by
  have hw := h.typeWord_append (s := [])
  rw [List.append_nil] at hw
  simpa [EndsTypeWord] using hw

/-! ## Objects -/

/-- The name of an object at the start of a text. -/
def objectName? : Text → Option Text
  | [] => none
  | '"' :: t => (cutAt? '"' t).map fun (name, _) => '"' :: name ++ ['"']
  | t => some (t.takeWhile fun c => !isSpace c)

theorem namedObject?_eq (h : t.trim = t.typeWord ++ m) :
    t.namedObject? = (objectName? (trimStart m)).map (t.typeWord, ·) := by
  rw [namedObject?, h, List.drop_left]
  dsimp only
  generalize trimStart m = u
  unfold objectName?
  split <;> simp [Function.comp_def]

theorem prefix_of_objectName? (h : objectName? t = some b) : b <+: t := by
  unfold objectName? at h
  split at h
  · cases h
  · obtain ⟨⟨u, v⟩, hu, rfl⟩ := Option.map_eq_some_iff.mp h
    rw [(cutAt?_eq_some.mp hu).1]
    exact ⟨v, by simp⟩
  · cases h
    exact List.takeWhile_prefix _

theorem objectName?_quoted (h : b.IsQuotedName) (m : Text) : objectName? (b ++ m) = some b := by
  obtain ⟨u, rfl, hu⟩ := h
  have hc : cutAt? '"' (u ++ '"' :: m) = some (u, m) :=
    cutAt?_eq_some.mpr ⟨rfl, fun hc => (hu '"' hc).1 rfl⟩
  simp [objectName?, hc]

theorem objectName?_word (h0 : b ≠ []) (hb : ∀ c ∈ b, isNamePart c) :
    objectName? (b ++ m) = some b ↔ ∀ c ∈ m.head?, isSpace c := by
  obtain ⟨d, b, rfl⟩ := List.exists_cons_of_ne_nil h0
  have hd : d ≠ '"' := by
    rintro rfl
    exact absurd (hb '"' List.mem_cons_self) (by decide)
  have hs : ∀ c ∈ d :: b, (!isSpace c) = true := fun c hc => by
    rw [not_isSpace_of_isNamePart (hb c hc)]
    rfl
  rw [List.cons_append, objectName?, Option.some_inj, ← List.cons_append, takeWhile_eq_iff]
  · simp only [Bool.not_eq_false', and_iff_right hs]
  · exact fun h => List.cons_ne_nil _ _ h
  · exact fun t ht => hd (List.cons.inj ht).1

/-- What names an object: a name in quotes, or a word or a number. -/
def NamesObject (t : Text) : Prop := t.IsQuotedName ∨ t ≠ [] ∧ ∀ c ∈ t, isNamePart c

/-- The characters that layout which is not white space starts with: comments, directives and byte
order marks. -/
def layoutStarts : List Char := ['/', '#', '\ufeff']

namespace NamesObject

theorem head (h : b.NamesObject) :
    ∀ c ∈ b.head?, inTypeWord c ∧ c ∉ layoutStarts := by
  obtain ⟨u, rfl, -⟩ | ⟨-, hp⟩ := h
  · intro c hc
    cases hc
    decide
  · intro c hc
    have hc := hp c (List.mem_of_mem_head? hc)
    refine ⟨inTypeWord_of_isNamePart hc, fun hm => ?_⟩
    have hl : layoutStarts.all fun c => !isNamePart c := by decide
    simpa [hc] using List.all_eq_true.mp hl c hm

theorem tight (h : b.NamesObject) : b.Tight := by
  have hd := h.head
  obtain ⟨u, rfl, -⟩ | ⟨h0, hp⟩ := h
  · refine ⟨List.cons_ne_nil _ _, fun c hc => ?_, fun c hc => ?_⟩
    · cases hc
      rfl
    · rw [← List.cons_append, List.getLast?_concat] at hc
      cases hc
      rfl
  · exact ⟨h0, fun c hc => not_isSpace_of_isNamePart (hp c (List.mem_of_mem_head? hc)),
      fun c hc => not_isSpace_of_isNamePart (hp c (List.mem_of_getLast? hc))⟩

/-- Behind white space an object is read as it is written if it has quotes or white space behind it. -/
theorem objectName? (h : b.NamesObject) :
    Text.objectName? (b ++ m) = some b ↔ b.IsQuotedName ∨ ∀ c ∈ m.head?, isSpace c := by
  obtain hq | ⟨h0, hp⟩ := h
  · exact iff_of_true (objectName?_quoted hq m) (.inl hq)
  · rw [objectName?_word h0 hp]
    refine ⟨.inr, ?_⟩
    rintro (⟨u, rfl, -⟩ | hm)
    · exact absurd (hp '"' List.mem_cons_self) (by decide)
    · exact hm

end NamesObject

/-- White space between the word and the object leaves the object at the start of what is read behind the
word. -/
theorem namedObject?_of_blank (ha : a.Tight) (hb : b.NamesObject)
    (hw : (a ++ (g ++ (b ++ r))).typeWord = a) (hg : g.isBlank) :
    (a ++ (g ++ (b ++ r))).namedObject? = some (a, b) ↔ b.IsQuotedName ∨ ∀ c ∈ r.head?, isSpace c := by
  obtain ⟨m, v, hv, hs, ht⟩ := ha.exists_trim_append (g ++ (b ++ r))
  obtain ⟨k, rfl, rfl⟩ := exists_of_blank_end (hs.symm.trans (List.append_assoc ..).symm) hv
    (x := g ++ b) fun c hc => hb.tight.last c (by rwa [List.getLast?_append_of_ne_nil _ hb.tight.ne_nil] at hc)
  have hk : trimStart (g ++ b ++ k) = b ++ k := by
    rw [List.append_assoc, trimStart, List.dropWhile_append_of_pos (isBlank_iff.mp hg)]
    exact hb.tight.trimStart_eq k
  rw [namedObject?_eq (by rw [hw, ht]), hw, hk, head_append_blank hv fun _ => id, ← hb.objectName?]
  simp

/-- An object that is found behind the word has only white space in front of it: it would start with what the
layout starts with. -/
theorem isBlank_of_namedObject? (ha : a.Tight) (hb : b.NamesObject)
    (hg : ∀ c ∈ (trimStart g).head?, c ∈ layoutStarts)
    (h : (a ++ (g ++ (b ++ r))).namedObject? = some (a, b)) : g.isBlank := by
  obtain ⟨m, v, -, hs, ht⟩ := ha.exists_trim_append (g ++ (b ++ r))
  have hw : (a ++ (g ++ (b ++ r))).typeWord = a := (infix_of_namedObject? h).1.symm
  rw [namedObject?_eq (by rw [hw, ht]), hw] at h
  obtain ⟨_, ho, h⟩ := Option.map_eq_some_iff.mp h
  cases h
  obtain ⟨k, hk⟩ := prefix_of_objectName? ho
  by_contra hn
  have hg0 := mt trimStart_eq_nil.mp hn
  have hm0 : trimStart m ≠ [] := by
    rw [← hk]
    exact List.append_ne_nil_of_left_ne_nil hb.tight.ne_nil _
  obtain ⟨c, w, hc⟩ := List.exists_cons_of_ne_nil hg0
  obtain ⟨d, b, rfl⟩ := List.exists_cons_of_ne_nil hb.tight.ne_nil
  have hcd := trimStart_append hg0 (d :: b ++ r)
  rw [hs, trimStart_append hm0, ← hk, hc] at hcd
  rw [hc] at hg
  exact (hb.head d rfl).2 ((List.cons.inj hcd).1 ▸ hg c rfl)

/-- A type of a word and an object with something between them, and with something behind them. -/
theorem namedObject?_append (ha : a.Tight) (hb : b.NamesObject)
    (hg : ∀ c ∈ (trimStart g).head?, c ∈ layoutStarts) :
    (a ++ (g ++ (b ++ r))).namedObject? = some (a, b) ↔
      a.typeWord = a ∧ g ≠ [] ∧ g.isBlank ∧ (b.IsQuotedName ∨ ∀ c ∈ r.head?, isSpace c) := by
  constructor
  · intro h
    have hw : (a ++ (g ++ (b ++ r))).typeWord = a := (infix_of_namedObject? h).1.symm
    obtain ⟨hall, hend⟩ := ha.typeWord_append.mp hw
    have hgb := isBlank_of_namedObject? ha hb hg h
    refine ⟨ha.typeWord_eq.mpr hall, ?_, hgb, (namedObject?_of_blank ha hb hw hgb).mp h⟩
    rintro rfl
    obtain ⟨d, b, rfl⟩ := List.exists_cons_of_ne_nil hb.tight.ne_nil
    exact absurd (hend d rfl) (by simp [(hb.head d rfl).1])
  · rintro ⟨hw, hg0, hgb, hr⟩
    refine (namedObject?_of_blank ha hb (ha.typeWord_append.mpr ⟨ha.typeWord_eq.mp hw, fun c hc => ?_⟩) hgb).mpr hr
    obtain ⟨_, g, rfl⟩ := List.exists_cons_of_ne_nil hg0
    cases hc
    simp [inTypeWord, isBlank_iff.mp hgb c List.mem_cons_self]

end Text

/-! ## Layout -/

/-- Layout that is not white space starts with a comment, a directive or a byte order mark. -/
theorem TokenKind.Matches.head_layout {k : TokenKind} {u : Text} (h : k.Matches u) (hk : k.isTrivia) :
    ∀ c ∈ (Text.trimStart u).head?, c ∈ Text.layoutStarts := by
  cases h with
  | mark h =>
      have hm : marks.all fun e => !e.2.isTrivia := by decide
      have := List.all_eq_true.mp hm _ h
      simp [hk] at this
  | keyword h =>
      have hm : keywords.all fun e => !e.2.isTrivia := by decide
      have := List.all_eq_true.mp hm _ h
      simp [hk] at this
  | whitespace _ hu =>
      intro c hc
      obtain ⟨hc, hs⟩ := Text.of_head_trimStart hc
      have hb := hu c hc
      simp only [isBlank, Bool.or_eq_true, beq_iff_eq] at hb
      rcases hb with ((rfl | rfl) | rfl) | rfl <;> first | exact absurd hs (by decide) | decide
  | newline hu =>
      intro c hc
      obtain ⟨hc, hs⟩ := Text.of_head_trimStart hc
      have hn : [['\r', '\n'], ['\n'], ['\r']].all (·.all Text.isSpace) := by decide
      rw [List.all_eq_true.mp (List.all_eq_true.mp hn _ hu) c hc] at hs
      cases hs
  | lineComment _ | blockComment _ =>
      intro c hc
      cases hc
      decide
  | directive _ _ =>
      intro c hc
      cases hc
      decide
  | _ => cases hk

theorem Lexeme.head_layout {ls : List Lexeme} {text : Text} (h : ∀ l ∈ ls, l ∈ lex text ∧ l.kind.isTrivia) :
    ∀ c ∈ (Text.trimStart (ls.flatMap (·.text))).head?, c ∈ Text.layoutStarts := by
  induction ls with
  | nil => simp [Text.trimStart]
  | cons l ls ih =>
      obtain ⟨⟨hl, hk⟩, hls⟩ := List.forall_mem_cons.mp h
      rw [List.flatMap_cons]
      by_cases hb : Text.isBlank l.text
      · rw [Text.trimStart, List.dropWhile_append_of_pos (Text.isBlank_iff.mp hb)]
        exact ih hls
      · have h0 := mt Text.trimStart_eq_nil.mp hb
        rw [Text.trimStart_append h0, List.head?_append_of_ne_nil _ h0]
        exact (matches_of_mem_lex hl fun he => by rw [he] at hk; cases hk).head_layout hk

/-! ## Nodes -/

namespace SyntaxTree

variable {text : Text} {n a : Node} {cs : List Node}

/-- Names and numbers are read as the names of objects. -/
theorem namesObject_of_token (hn : n ∈ (parse text).nodes) {k : TokenKind} (hk : n.kind = k)
    (h : k.isName ∨ k = .intLiteral) :
    n.text.NamesObject ∧ (n.text.IsQuotedName ↔ k = .quotedIdent) := by
  have he : k ≠ .error := by
    rintro rfl
    simp [TokenKind.isName] at h
  have hl := mem_lex_of_token hn hk he
  have hm := matches_of_token hn hk he
  have hq (hp : n.text.IsQuotedName) (hw : ∀ c ∈ n.text, isNamePart c) : False := by
    obtain ⟨u, hu, -⟩ := hp
    exact absurd (hw '"' (by rw [hu]; exact List.mem_cons_self)) (by decide)
  rcases h with h | rfl
  · obtain ⟨rfl, c, u, ht, hc, hu⟩ | ⟨rfl, hp⟩ := of_matches_name hm h
    · have hw := Text.IsPlainName.isNamePart ⟨c, u, ht, hc, hu⟩
      exact ⟨.inr ⟨text_ne_nil hl, hw⟩, fun hp => (hq hp hw).elim, fun h => by cases h⟩
    · exact ⟨.inl hp, iff_of_true hp rfl⟩
  · have hw : ∀ c ∈ n.text, isNamePart c := fun c hc => by
      simp [isNamePart, Char.isAlphanum, Lexer.digits_of_matches hm c hc]
    exact ⟨.inr ⟨text_ne_nil hl, hw⟩, fun hp => (hq hp hw).elim, fun h => by cases h⟩

/-- A type starts with a name. -/
theorem exists_typeName (h : (parse text).ok) (hn : n ∈ (parse text).nodes)
    (hk : n.kind = NodeKind.typeReference) :
    ∃ a cs, ∃ k : TokenKind, n.children = a :: cs ∧ a.kind = k ∧ k.isName := by
  obtain ⟨w, hw, hks⟩ := kinds_of_kind h hn hk
  obtain ⟨u, hu, v, -, rfl⟩ := hw
  obtain ⟨k, hk, rfl⟩ := Pattern.mem_tokens.mp hu
  obtain ⟨a, cs, hc, ha, -⟩ := List.map_eq_cons_iff.mp hks
  refine ⟨a, cs, k, hc, ha, ?_⟩
  rcases List.mem_pair.mp hk with rfl | rfl <;> rfl

/-- The word of a type is its first token if this token, with all that it has in quotes, is one word and
white space, a bracket or nothing follows it. The object is what the first two tokens say if there is white
space between them and nothing else, and if the second one has quotes or is followed by white space or
by nothing. -/
theorem typeText_iff (h : (parse text).ok) (hn : n ∈ (parse text).nodes)
    (hk : n.kind = NodeKind.typeReference) :
    ∃ a cs, n.children = a :: cs ∧
      (a.kind = TokenKind.ident → ∀ c ∈ a.text, Text.inTypeWord c) ∧
      (n.text.typeWord = a.text ↔ (∀ c ∈ a.text, Text.inTypeWord c) ∧
        (text.extract ⟨a.stop, n.stop⟩).EndsTypeWord) ∧
      ∀ b ∈ cs.head?, ∀ k : TokenKind, b.kind = k → k.isName ∨ k = .intLiteral →
        (n.text.namedObject? = some (a.text, b.text) ↔
          (∀ c ∈ a.text, Text.inTypeWord c) ∧
          a.between b ≠ [] ∧ (a.between b).isBlank ∧
          (k = .quotedIdent ∨ ∀ c ∈ (text.extract ⟨b.stop, n.stop⟩).head?, Text.isSpace c)) := by
  have hi : n.id ≠ 0 := fun hi => by cases hk.symm.trans (kind_root hn hi)
  obtain ⟨a, cs, k, hc, hak, hkn⟩ := exists_typeName h hn hk
  have ham : a ∈ n.children := by simp [hc]
  have han := mem_nodes_of_child hn ham
  obtain ⟨hao, haq⟩ := namesObject_of_token han hak (.inl hkn)
  have ha := hao.tight
  have ht : n.text = a.text ++ text.extract ⟨a.stop, n.stop⟩ := by
    rw [Node.text_eq_extract hn, ← Node.start_of_head h hn hi hc]
    exact Node.extract_from han (Node.hasRange_behind hn ham)
  refine ⟨a, cs, hc, fun hai => ?_, by rw [ht]; exact ha.typeWord_append, fun b hb j hbj hj => ?_⟩
  · have hq : ¬ a.text.IsQuotedName := fun hq => by cases (haq.mp hq ▸ hak).symm.trans hai
    exact fun c hc => Text.inTypeWord_of_isNamePart ((hao.resolve_left hq).2 c hc)
  obtain ⟨ds, rfl⟩ := List.head?_eq_some_iff.mp hb
  have hbm : b ∈ n.children := by simp [hc]
  have hbn := mem_nodes_of_child hn hbm
  obtain ⟨hbo, hbq⟩ := namesObject_of_token hbn hbj hj
  obtain ⟨ls, hls, hlay⟩ := Node.exists_layout h hn hi (show n.children = [] ++ a :: b :: ds from hc)
  have hab : a.stop ≤ b.start :=
    (List.pairwise_cons.mp (hc ▸ (ranged hn).apart)).1 b List.mem_cons_self
  rw [ht, Node.extract_behind hn ham hbm hab, ← hbq, ← ha.typeWord_eq]
  exact Text.namedObject?_append ha hbo (hls ▸ head_layout hlay)

/-- A comment between the word of a type and the name of an object is read as a part of the word. -/
theorem typeText_comment :
    let text : Text := ("table 1 T \x7b fields \x7b field(1; A; Integer) \x7b \x7d \x7d \x7d ".toList ++
      "codeunit 2 C \x7b procedure P() var x: Record/**/T; begin F(x.A); end; \x7d".toList)
    (parse text).ok ∧ ∃ n ∈ (parse text).nodes, n.kind = NodeKind.typeReference ∧
      n.children.map (·.text) = ["Record".toList, "T".toList] ∧
      n.text.typeWord = "Record/**/T".toList ∧ n.text.namedObject? = none := by
  decide +kernel

end SyntaxTree

end AlRefactor
