import AlRefactor.Proofs.Grammar.SteadyBodies

/-!
# Declarations do not hang on what follows

What ends with a semicolon or a closing bracket is read the same in front of anything. A type is read
the same if a section of variables comes in between it and a body. A procedure may end without a lexeme
of its own; it looks further ahead for a return value and for variables.
-/

namespace AlRefactor.Grammar

open Production AlRefactor.Tree

variable {c : Cursor} {n : Nat}

/-! ## Stretches -/

theorem leavesOf_map_leaf (ls : List Lexeme) : leavesOf (ls.map Tree.leaf) = ls := by
  induction ls with
  | nil => rfl
  | cons l ls ih => exact congrArg (l :: ·) ih

theorem reads_takes (us rest : List Lexeme) :
    (takes us.length).Reads (us.map Tree.leaf) rest := by
  induction us with
  | nil => exact reads_skip rest
  | cons u us ih => exact ih.take_append u

theorem reads_takes_ahead {k : Nat} (hk : k ≤ c.ahead.length) (rest : List Lexeme) :
    (takes k).Reads ((takes k).read c).made rest := by
  have ht := reads_takes (c.ahead.take k) rest
  rwa [List.length_take, Nat.min_eq_left hk, ← (made_takes k c).1] at ht

theorem leaves_takes (k : Nat) : leavesOf ((takes k).read c).made = c.ahead.take k := by
  rw [(made_takes k c).1, leavesOf_map_leaf]

/-- What starts with `var` and with `begin` goes for one another. -/
def bodyStart (l : Lexeme) : Lexeme :=
  if l.kind = .kwVar ∨ l.kind = .kwBegin then ⟨.kwVar, []⟩ else l

/-- What a type does not go on with: what starts a body, and what ends a parameter. -/
def typeEnd (l : Lexeme) : Lexeme :=
  if l.kind = .semicolon ∨ l.kind = .rParen then ⟨.semicolon, []⟩ else bodyStart l

/-- What no type looks for: all of this goes for one another unless a type ends with a clause. -/
abbrev typeStops : List TokenKind := [.kwVar, .kwBegin, .semicolon, .rParen]

/-- What a type does not go on with, all of it alike. -/
def typeStop (l : Lexeme) : Lexeme := if l.kind ∈ typeStops then ⟨.semicolon, []⟩ else l

/-- What goes for something else where a body starts does so behind a type. -/
theorem alike_typeEnd {ls ms : List Lexeme} (h : Alike bodyStart ls ms) : Alike typeEnd ls ms := by
  have ht : typeEnd = typeEnd ∘ bodyStart := by
    funext l
    by_cases hb : l.kind = .kwVar ∨ l.kind = .kwBegin
    · have hs : ¬ (l.kind = .semicolon ∨ l.kind = .rParen) := by rcases hb with h | h <;> simp [h]
      simp [typeEnd, bodyStart, hb, hs]
    · simp [bodyStart, hb]
  rw [Alike, ht, ← Option.map_map, ← Option.map_map]
  exact congrArg (Option.map typeEnd) h

theorem Alike.of_id {κ : Lexeme → Lexeme} {ls ms : List Lexeme} (h : Alike id ls ms) :
    Alike κ ls ms := by
  have h : ls.head? = ms.head? := by simpa [Alike] using h
  exact congrArg (Option.map κ) h

theorem alike_nil {κ : Lexeme → Lexeme} {rest : List Lexeme} (h : Alike κ [] rest) : rest = [] := by
  cases rest with
  | nil => rfl
  | cons l ls => cases h

/-- A closed stretch has its length whatever follows. -/
theorem balancedLength_closed_append (d : Nat) (ls rest : List Lexeme) (h : (balancedLength d ls).2 = false)
    (hl : (balancedLength d ls).1 < ls.length) :
    balancedLength d (ls.take (balancedLength d ls).1 ++ rest) = balancedLength d ls := by
  fun_induction balancedLength d ls with
  | case1 => cases hl
  | case2 d l ls hk r ih | case3 d l ls hk r ih =>
      have hb := ih h (Nat.lt_of_succ_lt_succ hl)
      simp only [List.take_succ_cons, List.cons_append, balancedLength, hk, r, hb]
  | case4 d l ls hk hd | case6 d l ls hk hd => simp [balancedLength, hk, hd]
  | case5 d l ls hk hd r ih | case7 d l ls hk hd r ih =>
      have hb := ih h (Nat.lt_of_succ_lt_succ hl)
      simp only [List.take_succ_cons, List.cons_append, balancedLength, hk, r, hb, if_neg hd]
  | case8 | case9 => cases h
  | case10 d l ls r _ _ _ _ _ _ ih =>
      have hb := ih h (Nat.lt_of_succ_lt_succ hl)
      simp only [List.take_succ_cons, List.cons_append]
      rw [balancedLength]
      split <;> first | contradiction | rw [hb]

/-- Any stretch has its length where nothing follows instead of nothing. -/
theorem balancedLength_append {κ : Lexeme → Lexeme} (d : Nat) (ls rest : List Lexeme)
    (h : (balancedLength d ls).2 = false) (ha : Alike κ (ls.drop (balancedLength d ls).1) rest) :
    balancedLength d (ls.take (balancedLength d ls).1 ++ rest) = balancedLength d ls := by
  by_cases hl : (balancedLength d ls).1 < ls.length
  · exact balancedLength_closed_append d ls rest h hl
  · have hl := Nat.le_of_not_lt hl
    rw [List.drop_eq_nil_of_le hl] at ha
    rw [alike_nil ha, List.append_nil, List.take_of_length_le hl]

/-- What goes for something else behind a type is the same, or both start a body, or both end a
parameter. -/
theorem eq_of_typeEnd {l m : Lexeme} (h : typeEnd l = typeEnd m) :
    m = l ∨ l.kind ∈ [.kwVar, .kwBegin] ∧ m.kind ∈ [.kwVar, .kwBegin] ∨
      l.kind ∈ [.semicolon, .rParen] ∧ m.kind ∈ [.semicolon, .rParen] := by
  simp only [List.mem_cons, List.not_mem_nil, or_false]
  unfold typeEnd bodyStart at h
  split_ifs at h with hl hm hm' hl' hm hm' hm hm'
  · exact .inr (.inr ⟨hl, hm⟩)
  · cases h
  · rw [← h] at hm
    exact absurd (.inl rfl) hm
  · cases h
  · exact .inr (.inl ⟨hl', hm'⟩)
  · rw [← h] at hm'
    exact absurd (.inl rfl) hm'
  · rw [h] at hl
    exact absurd (.inl rfl) hl
  · rw [h] at hl'
    exact absurd (.inl rfl) hl'
  · exact .inl h.symm

/-- What a clause cannot go on with outside of brackets. -/
abbrev endsClause (k : TokenKind) : Bool := [.semicolon, .rBrace, .rParen, .rBracket].contains k

theorem clauseLength_of_ends {l : Lexeme} (h : endsClause l.kind) (ls : List Lexeme) :
    clauseLength 0 (l :: ls) = 0 := by
  have hk : l.kind = .semicolon ∨ l.kind = .rBrace ∨ l.kind = .rParen ∨ l.kind = .rBracket := by
    simpa using h
  rcases hk with h | h | h | h <;> simp [clauseLength, h]

/-- A clause goes on with what follows instead of what it ends at. -/
theorem clauseLength_extend (d : Nat) (ls us : List Lexeme) (hl : clauseLength d ls < ls.length) :
    clauseLength d (ls.take (clauseLength d ls) ++ us) = clauseLength d ls + clauseLength 0 us := by
  fun_induction clauseLength d ls with
  | case1 => cases hl
  | case2 | case4 | case8 | case10 => simp
  | case3 d l ls hk hd ih | case5 d l ls hk hd ih | case9 d l ls hk hd ih | case11 d l ls hk hd ih =>
      have hb := ih (Nat.lt_of_succ_lt_succ hl)
      simp only [List.take_succ_cons, List.cons_append, clauseLength, hk, if_neg hd, hb]
      omega
  | case6 d l ls hk ih | case7 d l ls hk ih =>
      have hb := ih (Nat.lt_of_succ_lt_succ hl)
      simp only [List.take_succ_cons, List.cons_append, clauseLength, hk, hb]
      omega
  | case12 d l ls _ _ _ _ _ _ ih =>
      have hb := ih (Nat.lt_of_succ_lt_succ hl)
      simp only [List.take_succ_cons, List.cons_append]
      rw [clauseLength]
      split <;> first | contradiction | (rw [hb]; omega)

/-- What a clause stops at, or nothing. -/
theorem endsClause_drop (d : Nat) (ls : List Lexeme) :
    ∀ l ∈ (ls.drop (clauseLength d ls)).head?, endsClause l.kind := by
  fun_induction clauseLength d ls with
  | case1 =>
      intro l hl
      cases hl
  | case2 l ls hk | case4 l ls hk | case8 l ls hk | case10 l ls hk =>
      rintro m hm
      obtain rfl := Option.some.inj hm
      rw [hk]
      rfl
  | case3 _ _ _ _ _ ih | case5 _ _ _ _ _ ih | case6 _ _ _ _ ih | case7 _ _ _ _ ih | case9 _ _ _ _ _ ih
  | case11 _ _ _ _ _ ih | case12 _ _ _ _ _ _ _ _ _ ih => exact ih

/-- A clause ends at the same place whatever follows what it ends at. -/
theorem clauseLength_append (d : Nat) (ls rest : List Lexeme)
    (ha : Alike typeEnd (ls.drop (clauseLength d ls)) rest) :
    clauseLength d (ls.take (clauseLength d ls) ++ rest) = clauseLength d ls := by
  by_cases hl : clauseLength d ls < ls.length
  · have hs : clauseLength 0 rest = 0 := by
      have he := endsClause_drop d ls
      rw [List.drop_eq_getElem_cons hl] at ha he
      cases rest with
      | nil => cases ha
      | cons m ms =>
          refine clauseLength_of_ends ?_ ms
          have hk := he _ rfl
          rcases eq_of_typeEnd (Option.some.inj ha) with rfl | ⟨hl, -⟩ | ⟨-, hm⟩
          · exact hk
          · rcases List.mem_pair.mp hl with h | h <;> rw [h] at hk <;> cases hk
          · rcases List.mem_pair.mp hm with h | h <;> rw [h] <;> rfl
    rw [clauseLength_extend d ls rest hl, hs, Nat.add_zero]
  · have hl := Nat.le_of_not_lt hl
    rw [List.drop_eq_nil_of_le hl] at ha
    rw [alike_nil ha, List.append_nil, List.take_of_length_le hl]

/-- What is read without a problem is a closed stretch, or all that there is. -/
theorem read_balanced (hn : (balanced.read c).problems = []) :
    (balancedLength 0 c.ahead).2 = false ∧
      balanced.read c = (takes (balancedLength 0 c.ahead).1 ++ skip).read c := by
  have hb : (balancedLength 0 c.ahead).2 = false := by
    rw [balanced, read_look, read_append] at hn
    cases h : (balancedLength 0 c.ahead).2 with
    | false => rfl
    | true => simp [h] at hn
  refine ⟨hb, ?_⟩
  rw [balanced, read_look]
  simp [hb]

theorem steady_balanced {κ : Lexeme → Lexeme} : SteadyAt (Alike κ) n balanced balanced c := by
  intro hn _ rest hr
  obtain ⟨hb, hm⟩ := read_balanced hn
  rw [hm, read_append, read_skip] at hr ⊢
  refine Reads.look fun m => ?_
  have hl : leavesOf (((takes (balancedLength 0 c.ahead).1).read c).made ++ []) =
      c.ahead.take (balancedLength 0 c.ahead).1 := by rw [List.append_nil, leaves_takes]
  simp only [rest_takes] at hr
  simp only [hl, balancedLength_append 0 c.ahead rest hb hr, hb]
  exact (reads_takes_ahead (balancedLength_le 0 _) _).append (reads_skip rest)

theorem steady_clause : SteadyAt (Alike typeEnd) n clause clause c := by
  intro _ _ rest hr
  rw [clause, read_look] at hr ⊢
  rw [rest_takes] at hr
  refine Reads.look fun m => ?_
  simp only [leaves_takes, clauseLength_append 0 _ _ hr]
  exact reads_takes_ahead (clauseLength_le 0 _) rest

/-! ## Attributes -/

theorem steady_attributes : SteadyAt (Alike id) n attributes attributes c :=
  .whileAt (settled_isAt _) (fun _ hd => ahead_of_isAt hd nofun) fun _ hd =>
    ⟨steady_balanced.node _, fun _ =>
      leaves_ne_nil_of_opens ((leads_balanced (.inl (kind_of_isAt hd))).opens.node _)⟩

/-! ## Types -/

/-- Words of types that go on up to where a clause ends. -/
def clauseWords : List Text := ["label", "textconst", "option"]

/-- What the next lexeme decides, and takes for the same as its class. -/
theorem settled_of_class {α : Type} {f : Cursor → α} {κ : Lexeme → Lexeme}
    (h : ∀ n ls, f ⟨n, ls⟩ = f ⟨0, ls.head?.toList⟩) (hκ : ∀ l, f ⟨0, [l]⟩ = f ⟨0, [κ l]⟩) :
    Settled (Alike κ) f :=
  settled_of fun n ls => by
    cases ls with
    | nil => exact h n []
    | cons l ls => exact (h n _).trans (hκ l)

/-- What goes for something else behind a type does so where all that ends types is alike. -/
theorem alike_typeStop {ls ms : List Lexeme} (h : Alike typeEnd ls ms) : Alike typeStop ls ms := by
  have ht : typeStop = typeStop ∘ typeEnd := by
    funext l
    by_cases hs : l.kind = .semicolon ∨ l.kind = .rParen
    · have hl : l.kind ∈ typeStops := by rcases hs with h | h <;> simp [h]
      simp [typeStop, typeEnd, hs, hl]
    · by_cases hb : l.kind = .kwVar ∨ l.kind = .kwBegin
      · have hl : l.kind ∈ typeStops := by rcases hb with h | h <;> simp [h]
        simp [typeStop, typeEnd, bodyStart, hs, hb, hl]
      · simp [typeEnd, bodyStart, hs, hb]
  rw [Alike, ht, ← Option.map_map, ← Option.map_map]
  exact congrArg (Option.map typeStop) h

/-- What the next lexeme decides, and takes for the same where a type ends. -/
theorem settled_of_typeStop {α : Type} {f : Cursor → α} (h : ∀ n ls, f ⟨n, ls⟩ = f ⟨0, ls.head?.toList⟩)
    (he : ∀ l : Lexeme, l.kind ∈ typeStops → f ⟨0, [l]⟩ = f ⟨0, [⟨.semicolon, []⟩]⟩) :
    Settled (Alike typeStop) f :=
  settled_of_class h fun l => by
    unfold typeStop
    split
    · exact he l ‹_›
    · rfl

/-- What does not tell apart what ends a type looks for something else. -/
theorem settled_of_kind {f : TokenKind → Bool} (h : typeStops.all (!f ·)) :
    Settled (Alike typeStop) fun c => f c.kind := by
  simp only [List.all_eq_true, Bool.not_eq_true'] at h
  refine settled_of_typeStop (fun _ ls => by cases ls <;> rfl) fun l hl => ?_
  exact (h _ hl).trans (h .semicolon (by decide)).symm

theorem settled_typeStop_isAt {k : TokenKind} (h : k ∉ typeStops) : Settled (Alike typeStop) (·.isAt k) :=
  settled_of_kind (f := (· == k)) <| List.all_eq_true.mpr fun j hj => by
    have hjk : (j == k) = false := beq_eq_false_iff_ne.mpr fun he => h (by rwa [← he])
    rw [hjk]
    rfl

theorem settled_typeEnd_isAt {k : TokenKind} (h : k ∉ typeStops) : Settled (Alike typeEnd) (·.isAt k) :=
  (settled_typeStop_isAt h).imp fun _ _ => alike_typeStop

theorem settled_typeStop_isName : Settled (Alike typeStop) (·.kind.isName) := settled_of_kind rfl

theorem settled_typeEnd_isName : Settled (Alike typeEnd) (·.kind.isName) :=
  settled_typeStop_isName.imp fun _ _ => alike_typeStop

theorem settled_bodyStart_isAt {k : TokenKind} (hv : k ≠ .kwVar) (hb : k ≠ .kwBegin) :
    Settled (Alike bodyStart) (·.isAt k) :=
  settled_of_class (fun _ ls => by cases ls <;> rfl) fun l => by
    unfold bodyStart
    split
    · rename_i h
      rcases h with h | h <;> simp [Cursor.isAt, Cursor.kind, Cursor.peek, h, hv.symm, hb.symm]
    · rfl

theorem settled_typeStop_atWord (word : Text) : Settled (Alike typeStop) (·.atWord word) := by
  have hw {k : TokenKind} (t : Text) (hk : k ∈ typeStops) : Cursor.atWord ⟨0, [⟨k, t⟩]⟩ word = false := by
    have hi : Cursor.isAt ⟨0, [⟨k, t⟩]⟩ .ident = false :=
      beq_false_of_ne fun he => absurd (he ▸ hk : TokenKind.ident ∈ typeStops) (by decide)
    rw [Cursor.atWord, hi]
    rfl
  exact settled_of_typeStop (fun _ ls => by cases ls <;> rfl) fun l hl =>
    (hw l.text hl).trans (hw [] (by decide)).symm

/-- The text of a name goes with it. -/
theorem text_of_typeStop {d : Cursor} (h : Alike typeStop c.ahead d.ahead)
    (hn : c.kind.isName = true) : d.text = c.text := by
  obtain ⟨i, ls⟩ := c
  obtain ⟨j, ms⟩ := d
  cases ls with
  | nil => cases hn
  | cons l ls =>
      cases ms with
      | nil => cases h
      | cons m ms =>
          have hl : l.kind.isName = true := hn
          have he : typeStop l = typeStop m := Option.some.inj h
          have hno : l.kind ∉ typeStops := fun hk =>
            absurd ((by decide : ∀ k ∈ typeStops, k.isName = false) _ hk) (by rw [hl]; decide)
          rw [typeStop, if_neg hno] at he
          unfold typeStop at he
          split at he
          · rw [he] at hl
            cases hl
          · exact congrArg Lexeme.text he.symm

section Word

variable {κ : Lexeme → Lexeme} (hκ : ∀ ls ms, Alike κ ls ms → Alike typeStop ls ms)
include hκ

theorem steady_balancedIf {k : TokenKind} (hk : k ∉ typeStops) :
    SteadyAt (Alike κ) n (choose (·.isAt k) balanced skip) (choose (·.isAt k) balanced skip) c :=
  .choose ((settled_typeStop_isAt hk).imp hκ) (fun _ => steady_balanced) fun _ => .skip

omit hκ in
theorem ahead_of_atWord {word : Text} (h : c.atWord word = true) : c.ahead ≠ [] :=
  ahead_of_isAt (Bool.and_eq_true_iff.mp h).1 nofun

/-- What follows a type word is steady if a clause and an element type there are. -/
theorem steady_typeTail (word : Text) {element element' : Production}
    (hc : word ∈ clauseWords → SteadyAt (Alike κ) n clause clause c)
    (h : word = "array".toList → c.isAt .kwOf = true →
      SteadyAt (Alike κ) n element element' (take.read c).rest) :
    SteadyAt (Alike κ) n (typeTail word element) (typeTail word element') c := by
  have hw (word : Text) {p : Production} (hp : ∀ d, SteadyAt (Alike κ) n p p d) (d : Cursor) :
      SteadyAt (Alike κ) n (choose (·.atWord word) (take ++ p) skip)
        (choose (·.atWord word) (take ++ p) skip) d :=
    .choose ((settled_typeStop_atWord word).imp hκ)
      (fun hd => .append (.take (ahead_of_atWord hd)) (hp _)) fun _ => .skip
  have ho : SteadyAt (Alike κ) n (choose (fun c => c.kind.isName || c.isAt .intLiteral) take skip)
      (choose (fun c => c.kind.isName || c.isAt .intLiteral) take skip) c := by
    refine .choose (.imp ?_ hκ) (fun hd => .take (ahead_ne_nil fun hk => ?_)) fun _ => .skip
    · exact settled_of_kind (f := fun k => k.isName || k == .intLiteral) rfl
    · simp [hk, Cursor.isAt, TokenKind.isName] at hd
  have hof : Settled (Alike κ) (·.isAt .kwOf) := (settled_typeStop_isAt (by decide)).imp hκ
  unfold typeTail
  split
  · rename_i ha
    exact .choose hof (fun hd => .append (.take (ahead_of_isAt hd (by decide))) (h (beq_iff_eq.mp ha) hd))
      fun _ => .skip
  split
  · exact .takeThen (by decide) hof fun _ => steady_balancedIf hκ (by decide)
  split
  · rename_i hk
    exact hc (by simpa [clauseWords, or_assoc] using hk)
  split
  · exact .append (.append ho (.choose ((settled_typeStop_atWord _).imp hκ)
      (fun hd => .take (ahead_of_atWord hd)) fun _ => .skip))
      (hw _ (fun _ => steady_balancedIf hκ (by decide)) _)
  · exact .skip

end Word

theorem led_typeUpTo {m m' : Nat}
    (h : ∀ d, SteadyAt (Alike typeEnd) n (typeUpTo m) (typeUpTo m') d) :
    LedAt (Alike typeEnd) n (typeUpTo (m + 1)) (typeUpTo (m' + 1)) c := by
  refine .look fun d hd => ?_
  have hk : c.kind.isName = d.kind.isName := settled_typeEnd_isName c d hd
  rw [← hk]
  split
  · rename_i hn
    rw [text_of_typeStop (alike_typeStop hd) hn]
    exact ((LedAt.take (ahead_of_isName hn)).append fun _ =>
      steady_balancedIf (fun _ _ => alike_typeStop) (by decide)).append fun _ =>
        steady_typeTail (fun _ _ => alike_typeStop) _ (fun _ => steady_clause) fun _ _ => h _
  · exact .report _

theorem steady_typeUpTo {m m' : Nat} (hm : n ≤ m) (hm' : n ≤ m') (c : Cursor) :
    SteadyAt (Alike typeEnd) n (typeUpTo m) (typeUpTo m') c := by
  induction n generalizing m m' c with
  | zero => exact fun _ hl => absurd hl (Nat.not_lt_zero _)
  | succ n ih =>
      obtain ⟨m, rfl⟩ := Nat.exists_eq_add_of_le' hm
      obtain ⟨m', rfl⟩ := Nat.exists_eq_add_of_le' hm'
      exact (led_typeUpTo (ih (Nat.le_add_left n m) (Nat.le_add_left n m'))).steady

theorem led_typeReference : LedAt (Alike typeEnd) n typeReference typeReference c := by
  refine .node _ ⟨.look_length fun _ _ _ hm hm' => steady_typeUpTo hm hm' c, fun hn => ?_⟩
  exact .look ((led_typeUpTo
    (steady_typeUpTo (Nat.zero_le c.ahead.length) (Nat.zero_le c.ahead.length))).opens hn)

theorem steady_typeReference (c : Cursor) :
    SteadyAt (Alike typeEnd) n typeReference typeReference c :=
  led_typeReference.steady.of_le (Nat.le_succ n)

theorem led_typed : LedAt (Alike typeEnd) n typed typed c :=
  .choose (settled_typeEnd_isAt (by decide))
    (fun hc => (LedAt.take (ahead_of_isAt hc (by decide))).append steady_typeReference) fun _ =>
    .report _

/-! ## Lists -/

/-- The kinds of lexemes that are read do not hang on what follows. -/
theorem peek_of_leaves {us ls : List Lexeme} {k : Nat} (h : us ++ ls = c.ahead)
    (hk : k < us.length) (m : Nat) (ms : List Lexeme) :
    Cursor.peek ⟨m, us ++ ms⟩ k = c.peek k := by
  simp only [Cursor.peek, ← h, List.getElem?_append_left hk]

/-- A separator and something behind it that an element can start with. -/
def Continues (sep : TokenKind) (s : TokenKind → Bool) (c : Cursor) : Bool :=
  c.isAt sep && s (c.peek 1)

/-- What follows starts alike and continues a list or not alike. -/
def ListEnd (sep : TokenKind) (s : TokenKind → Bool) : Follow := fun ls ms =>
  Alike id ls ms ∧ ∀ i j, Continues sep s ⟨i, ls⟩ = Continues sep s ⟨j, ms⟩

section List

variable {sep : TokenKind} {s : TokenKind → Bool} {p q : Production}

theorem listEnd_append {us ls ms : List Lexeme} (h : Alike id ls ms)
    (hu : us = [] → Cursor.isAt ⟨0, ls⟩ sep = false) : ListEnd sep s (us ++ ls) (us ++ ms) := by
  refine ⟨Stacks.append us h, fun i j => ?_⟩
  cases us with
  | nil =>
      have hl : Cursor.isAt ⟨i, ls⟩ sep = false := hu rfl
      have hm : Cursor.isAt ⟨j, ms⟩ sep = false := (settled_isAt sep ⟨i, ls⟩ ⟨j, ms⟩ h).symm.trans hl
      simp [Continues, hl, hm]
  | cons u us =>
      have hk : Cursor.kind ⟨i, us ++ ls⟩ = Cursor.kind ⟨j, us ++ ms⟩ :=
        settled_kind _ _ (Stacks.append us h)
      exact congrArg (fun k => (u.kind == sep) && s k) hk

variable (hs : sep ≠ .eof)
include hs

/-- An element behind a separator is found again as one. -/
theorem round_continued {κ : Lexeme → Lexeme} (hc : Continues sep s c = true)
    (hp : LedAt (Alike κ) n p p (take.read c).rest) (hn : ((take ++ p).read c).problems = []) :
    SteadyRound (Alike κ) n (Continues sep s) (take ++ p) (take ++ p) c := by
  have ha : c.ahead ≠ [] := ahead_of_isAt (Bool.and_eq_true_iff.mp hc).1 hs
  have hl : 1 < (leavesOf ((take ++ p).read c).made).length := by
    rw [read_append] at hn ⊢
    have := List.length_pos_iff.mpr (leaves_ne_nil_of_opens (.take ha))
    have := List.length_pos_iff.mpr (hp.reads (List.append_eq_nil_iff.mp hn).2)
    rw [leavesOf_append, List.length_append]
    omega
  have hk := fun k hk => peek_of_leaves (read_leaves (take ++ p) c) (k := k) (Nat.lt_of_le_of_lt hk hl)
  have hr : leavesOf ((take ++ p).read c).made ≠ [] := List.ne_nil_of_length_pos (Nat.zero_lt_of_lt hl)
  refine ⟨.append (.take ha) (hp.steady.of_le (Nat.le_succ n)), hr, fun m more => ?_, fun _ _ => Alike.append hr _ _⟩
  rw [← hc, Continues, Cursor.isAt, Cursor.kind, hk 0 (Nat.zero_le 1), hk 1 (Nat.le_refl 1)]
  rfl

omit hs in
theorem kind_behind_separator (hc : Continues sep s c = true) : s (take.read c).rest.kind = true := by
  rw [kind_rest_take]
  exact (Bool.and_eq_true_iff.mp hc).2

/-- The elements behind separators. -/
theorem steady_continued (h : ∀ d, s d.kind = true → LedAt (Alike id) n p p d) :
    SteadyAt (ListEnd sep s) n (whileAt (Continues sep s) (take ++ p))
      (whileAt (Continues sep s) (take ++ p)) c := by
  have hc (d : Cursor) (hd : Continues sep s d = true) : d.ahead ≠ [] :=
    ahead_of_isAt (Bool.and_eq_true_iff.mp hd).1 hs
  refine .whileAt_of (fun c d hd => hd.2 c.read d.read) hc
    (fun d hd _ => leaves_ne_nil_of_opens (Opens.take (hc d hd)).append) fun d hd hn => ?_
  obtain ⟨hp, hr, ht, hf⟩ := round_continued hs hd (h _ (kind_behind_separator hd)) hn
  exact ⟨hp.imp fun _ _ h => h.1, hr, ht, fun ls ms => ⟨hf ls ms, fun i j => (ht i ls).trans (ht j ms).symm⟩⟩

/-- Perhaps there is a separator behind the last element. -/
theorem listEnd_takeThen {rest : List Lexeme} (h : Alike id ((takeThen sep q).read c).rest.ahead rest) :
    ListEnd sep s c.ahead (leavesOf ((takeThen sep q).read c).made ++ rest) := by
  have hl := read_leaves (takeThen sep q) c
  rw [← hl]
  refine listEnd_append h fun hu => Bool.eq_false_iff.mpr fun he => ?_
  rw [hu, List.nil_append] at hl
  rw [hl] at he
  have ho : (takeThen sep q).Opens c := .choose (fun _ => .append (.take (ahead_of_isAt he hs)))
    fun h => absurd (h.symm.trans he) (by decide)
  exact leaves_ne_nil_of_opens ho hu

/-- A list with its first element. -/
theorem steady_list {f : Production} (hf : SteadyAt (Alike id) n f f c)
    (h : ∀ d, s d.kind = true → LedAt (Alike id) n p p d)
    (hq : ∀ d, SteadyAt (Alike id) n q q d) :
    SteadyAt (Alike id) n (f ++ whileAt (Continues sep s) (take ++ p) ++ takeThen sep q)
      (f ++ whileAt (Continues sep s) (take ++ p) ++ takeThen sep q) c := by
  refine .append_of (.append_of hf (steady_continued hs h) fun _ rest ha => ?_)
    (.takeThen hs (settled_isAt sep) hq) fun _ _ => listEnd_takeThen hs
  rw [← read_leaves (whileAt (Continues sep s) (take ++ p))]
  exact Stacks.append _ ha.1

end List

/-! ## Variables -/

/-- The kinds of the first two lexemes, which lie in a declaration, decide on its form. -/
theorem firm_listedName (hc : c.ahead ≠ []) : FirmAt n listedName listedName c :=
  (firm_name hc).node _

theorem steady_furtherNames : SteadyAt (Alike id) n furtherNames furtherNames c :=
  .append_of (steady_continued (s := TokenKind.isName) (by decide)
      fun d hd => ((LedAt.take (ahead_of_isName hd)).node _).node _)
    (.takeThen (by decide) (settled_isAt _) fun _ => .report _) fun _ _ => listEnd_takeThen (by decide)

/-- What stands behind the attributes of a variable. -/
def variableBody : Production :=
  choose (·.peek 1 == .comma) (listedName ++ furtherNames) name ++ typed ++ require .semicolon

/-- A name and the type at least. -/
theorem two_variableBody (hn : (variableBody.read c).problems = []) :
    1 < (leavesOf (variableBody.read c).made).length := by
  rw [variableBody, read_append, read_append] at hn ⊢
  obtain ⟨hn, hs⟩ := List.append_eq_nil_iff.mp hn
  have ht := led_typed (n := 0).reads (List.append_eq_nil_iff.mp hn).2
  have hs := List.length_pos_iff.mpr (leaves_require (by decide) hs)
  have ht := List.length_pos_iff.mpr ht
  dsimp only at hs
  simp only [leavesOf_append, List.length_append]
  omega

theorem firm_variableBody : FirmAt n variableBody variableBody c := by
  intro hn hl rest _
  have h₂ := two_variableBody hn
  have hp := fun m => peek_of_leaves (read_leaves variableBody c) h₂ m rest
  have hc : c.ahead ≠ [] := fun h => by
    have := read_leaves variableBody c
    rw [h, List.append_eq_nil_iff] at this
    simp [this.1] at h₂
  have ht (d : Cursor) : SteadyAt (Alike id) n typed typed d :=
    (led_typed.steady.of_le (Nat.le_succ n)).imp fun _ _ => Alike.of_id
  have hb {p : Production} (h : SteadyAt (Alike id) n p p c)
      (he : ∀ d, d.peek 1 = c.peek 1 → variableBody.read d = (p ++ typed ++ require .semicolon).read d) :
      variableBody.Reads (variableBody.read c).made rest := by
    rw [he c rfl] at hn hl hp ⊢
    refine ⟨fun m => ?_⟩
    rw [he _ (hp m)]
    exact ((h.append (ht _)).required (by decide) hn hl rest trivial).outcome m
  by_cases hk : c.peek 1 = .comma
  · refine hb (p := listedName ++ furtherNames)
      ((firm_listedName hc).steady.append steady_furtherNames) fun d hd => ?_
    simp [variableBody, read_append, hd, hk]
  · refine hb (p := name) (firm_name hc).steady fun d hd => ?_
    simp [variableBody, read_append, hd, hk]

/-- A list or a single declaration. -/
def variableKind (c : Cursor) : Kind :=
  if c.peek 1 == .comma then NodeKind.variableListDeclaration else NodeKind.variableDeclaration

theorem variableDeclaration_eq : variableDeclaration = mark attributes variableKind variableBody := rfl

theorem of_variableDeclaration (hn : (variableDeclaration.read c).problems = []) :
    (attributes.read c).problems = [] ∧
      (variableBody.read (attributes.read c).rest).problems = [] := by
  rw [variableDeclaration_eq, read_mark] at hn
  exact List.append_eq_nil_iff.mp hn

theorem leaves_variableDeclaration : leavesOf (variableDeclaration.read c).made =
    leavesOf (attributes.read c).made ++ leavesOf (variableBody.read (attributes.read c).rest).made := by
  rw [variableDeclaration_eq, read_mark, leavesOf, leaves, leavesOf, List.append_nil, leavesOf_append]

theorem firm_variableDeclaration : FirmAt n variableDeclaration variableDeclaration c := by
  intro hn hl rest _
  obtain ⟨ha, hb⟩ := of_variableDeclaration hn
  have h₂ := two_variableBody hb
  have hp := fun m => peek_of_leaves (read_leaves variableBody (attributes.read c).rest) h₂ m rest
  rw [leaves_variableDeclaration, List.length_append] at hl
  have hat := steady_attributes ha (Nat.lt_of_le_of_lt (Nat.le_add_right _ _) hl)
    (leavesOf (variableBody.read (attributes.read c).rest).made ++ rest) (by
      rw [← read_leaves variableBody (attributes.read c).rest]
      exact Alike.append (List.ne_nil_of_length_pos (by omega)) _ _)
  have hbr := firm_variableBody hb (Nat.lt_of_le_of_lt (Nat.le_add_left _ _) hl) rest trivial
  rw [variableDeclaration_eq, read_mark]
  exact hat.mark (fun m => by rw [variableKind, hp m, variableKind]) hbr

/-- What follows starts alike and is a variable or not alike. -/
def VariableEnd : Follow := fun ls ms =>
  Alike id ls ms ∧ ∀ i j, atVariable ⟨i, ls⟩ = atVariable ⟨j, ms⟩

theorem ahead_of_atVariable (h : atVariable c = true) : c.ahead ≠ [] := fun hc => by
  simp [atVariable, hc, afterAttributes] at h

/-- Attributes are passed over to what stands behind them, whatever follows that. -/
theorem afterAttributes_append {us ls : List Lexeme} (hn : (attributes.read c).problems = [])
    (hu : us ≠ []) (h : us ++ ls = (attributes.read c).rest.ahead) (more : List Lexeme) :
    afterAttributes 0 (leavesOf (attributes.read c).made ++ (us ++ more)) = us ++ more := by
  have hr : attributes.Reads (attributes.read c).made (us ++ more) :=
    steady_attributes hn (Nat.lt_succ_self _) _ (h ▸ Alike.append hu _ _)
  obtain ⟨i, hi⟩ := hr.rest_eq 0
  have ha := rest_attributes (hr.outcome 0).2
  rw [hi] at ha
  exact ha.symm

/-- A variable that is read without a problem is found again as one. -/
theorem atVariable_variableDeclaration (hc : atVariable c = true)
    (hn : (variableDeclaration.read c).problems = []) (m : Nat) (more : List Lexeme) :
    atVariable ⟨m, leavesOf (variableDeclaration.read c).made ++ more⟩ = true := by
  obtain ⟨ha, hb⟩ := of_variableDeclaration hn
  obtain ⟨-, hk, hc⟩ := rest_attributes_of_atVariable hc ha
  have hl := read_leaves variableBody (attributes.read c).rest
  obtain ⟨l, u, us, hu⟩ : ∃ l u us, leavesOf (variableBody.read (attributes.read c).rest).made =
      l :: u :: us := by
    match leavesOf (variableBody.read (attributes.read c).rest).made, two_variableBody hb with
    | l :: u :: us, _ => exact ⟨l, u, us, rfl⟩
  rw [leaves_variableDeclaration, List.append_assoc, atVariable,
    afterAttributes_append ha (by rw [hu]; exact List.cons_ne_nil _ _) hl]
  rw [hu] at hl ⊢
  simpa [Cursor.kind, Cursor.peek, ← hl] using And.intro hk hc

theorem round_variableDeclaration (hc : atVariable c = true)
    (hn : (variableDeclaration.read c).problems = []) :
    SteadyRound VariableEnd n atVariable variableDeclaration variableDeclaration c := by
  have hr := leaves_ne_nil_of_opens (leads_variableDeclaration hc).opens
  have ht := atVariable_variableDeclaration hc hn
  exact ⟨firm_variableDeclaration.steady, hr, ht, fun ls ms =>
    ⟨Alike.append hr _ _, fun i j => (ht i ls).trans (ht j ms).symm⟩⟩

theorem steady_variables : SteadyAt VariableEnd n (whileAt atVariable variableDeclaration)
    (whileAt atVariable variableDeclaration) c :=
  .whileAt_of (fun c d h => h.2 c.read d.read) (fun _ => ahead_of_atVariable)
    (fun _ hd _ => leaves_ne_nil_of_opens (leads_variableDeclaration hd).opens)
    fun _ => round_variableDeclaration

theorem steady_varSection (kind : NodeKind)
    (hc : c.kind = .kwVar ∨ c.kind = .kwProtected ∧ c.peek 1 = .kwVar) :
    SteadyAt VariableEnd n (varSection kind) (varSection kind) c := by
  have hr : ((takeIf .kwProtected).read c).rest.ahead ≠ [] :=
    ahead_ne_nil (by simp [kind_rest_protected hc])
  have hv : SteadyAt Whatever n (takeIf .kwProtected ++ take) (takeIf .kwProtected ++ take) c :=
    .append_reading (.takeIf (by decide) (settled_isAt _)) (.take hr)
      fun _ => leaves_ne_nil_of_opens (.take hr)
  exact .node _ (.append_of hv steady_variables fun _ _ _ => trivial)

/-! ## Parameters and return values -/

theorem steady_parameter (c : Cursor) : SteadyAt (Alike typeEnd) n parameter parameter c := by
  -- What stands in front of the type ends with a name of its own.
  have hw : FirmAt n (takeIf .kwVar ++ nameOr .missingParameterName)
      (takeIf .kwVar ++ nameOr .missingParameterName) c :=
    .append_reading (.takeIf (by decide) (settled_isAt _)) (firm_nameOr _) leaves_nameOr
  exact .node _ (.append hw.steady (led_typed.steady.of_le (Nat.le_succ n)))

theorem led_parameter (h : atParameter c = true) : LedAt (Alike typeEnd) n parameter parameter c :=
  ⟨steady_parameter c, fun _ => (leads_parameter h).opens⟩

theorem steady_noParameter (c : Cursor) : SteadyAt (Alike id) n noParameter noParameter c :=
  .choose (settled_of fun _ ls => by cases ls <;> rfl) (fun _ => .skip) fun _ => .report _

theorem steady_parameters : SteadyAt (Alike id) n parameters parameters c :=
  steady_list (s := fun k => k == .kwVar || k.isName) (by decide)
    ((steady_parameter c).imp fun _ _ => Alike.of_id)
    (fun _ hd => (led_parameter hd).imp fun _ _ => Alike.of_id) steady_noParameter

theorem firm_parameterList (hc : c.ahead ≠ []) : FirmAt n parameterList parameterList c :=
  .node _ ((SteadyAt.append (.take hc) (.choose (settled_of fun _ ls => by cases ls <;> rfl)
    (fun _ => steady_parameters) fun _ => steady_noParameter _)).required (by decide))

theorem led_returnValue (h : atReturnValue c = true) :
    LedAt (Alike typeEnd) n returnValue returnValue c := by
  refine ⟨.node _ (.append (.append (.choose settled_typeEnd_isName (fun hn => ?_) fun _ => .skip)
    (.take ?_)) (steady_typeReference _)), fun _ => (leads_returnValue h).opens⟩
  · exact (firm_name (ahead_of_isName hn)).steady
  · exact ahead_ne_nil (by rw [kind_rest_returnName h]; decide)

/-! ## Procedures and triggers -/

/-- What follows starts alike, apart from the start of a body, and is a return value or not alike. -/
def HeadEnd : Follow := fun ls ms =>
  Alike bodyStart ls ms ∧ ∀ i j, atReturnValue ⟨i, ls⟩ = atReturnValue ⟨j, ms⟩

instance : Stacks HeadEnd where
  append us h := by
    refine ⟨Stacks.append us h.1, fun i j => ?_⟩
    cases us with
    | nil => exact h.2 i j
    | cons u us =>
        have hk : Cursor.isAt ⟨i, us ++ _⟩ .colon = Cursor.isAt ⟨j, us ++ _⟩ .colon :=
          settled_bodyStart_isAt (by decide) (by decide) _ _ (Stacks.append us h.1)
        exact congrArg (fun b => u.kind == .colon || (u.kind.isName && b)) hk

/-- What follows starts alike, and tells alike whether it is a return value or a variable. -/
structure MemberEnd (ls ms : List Lexeme) : Prop where
  alike : Alike id ls ms
  returns (i j : Nat) : atReturnValue ⟨i, ls⟩ = atReturnValue ⟨j, ms⟩
  declares (i j : Nat) : atVariable ⟨i, ls⟩ = atVariable ⟨j, ms⟩

/-- What a procedure has in front of its variables. -/
def methodHead : Production :=
  nameOr .missingProcedureName ++
    choose (·.isAt .lParen) parameterList (report (.missing .lParen)) ++
    choose atReturnValue returnValue skip ++
    takeIf .semicolon

theorem steady_methodHead : SteadyAt HeadEnd n methodHead methodHead c := by
  have hp (d : Cursor) : FirmAt n (choose (·.isAt .lParen) parameterList (report (.missing .lParen)))
      (choose (·.isAt .lParen) parameterList (report (.missing .lParen))) d :=
    .choose_report (settled_isAt _) (fun h => firm_parameterList (ahead_of_isAt h (by decide)))
      (fun h _ => leaves_ne_nil_of_opens (leads_parameterList (ahead_of_isAt h (by decide))).opens) _
  refine .append (.append (.append (firm_nameOr _).steady (hp _).steady) ?_) ?_
  · exact .choose (fun c d h => h.2 c.read d.read)
      (fun h => ((led_returnValue h).steady.of_le (Nat.le_succ n)).imp fun _ _ h => alike_typeEnd h.1)
      fun _ => .skip
  · exact .takeIf (by decide) fun c d h => settled_bodyStart_isAt (by decide) (by decide) c d h.1

/-- The variables of a procedure. -/
def methodVariables : Production := choose (·.isAt .kwVar) (varSection .varSection) skip

/-- The body of a procedure. -/
def methodBody : Production := choose (·.isAt .kwBegin) (block ++ takeIf .semicolon) skip

theorem methodRest_eq : methodRest = methodHead ++ methodVariables ++ methodBody := rfl

theorem steady_methodBody : SteadyAt (Alike id) n methodBody methodBody c :=
  .choose (settled_isAt _) (fun h => .append
    ((led_block (ahead_of_isAt h nofun)).steady.of_le (Nat.le_succ n))
    (.takeIf (by decide) (settled_isAt _))) fun _ => .skip

theorem steady_methodVariables : SteadyAt VariableEnd n methodVariables methodVariables c :=
  .choose_of (fun _ _ h => h.1) (settled_isAt .kwVar)
    (fun h => steady_varSection _ (.inl (kind_of_isAt h))) fun _ => .skip

/-- What is neither a name nor a colon is no return value, and without a bracket no variable. -/
theorem not_due {l : Lexeme} (hn : l.kind.isName = false) (hc : l.kind ≠ .colon)
    (hb : l.kind ≠ .lBracket) (m : Nat) (ls : List Lexeme) :
    atReturnValue ⟨m, l :: ls⟩ = false ∧ atVariable ⟨m, l :: ls⟩ = false := by
  have ha : afterAttributes 0 (l :: ls) = l :: ls := by simp [afterAttributes]
  constructor
  · simp [atReturnValue, Cursor.isAt, Cursor.kind, Cursor.peek, hn, hc]
  · rw [atVariable, ha]
    cases ls <;> simp [hn]

/-- What starts with a lexeme that is neither a name nor a bracket goes for anything that does. -/
theorem memberEnd_cons {l : Lexeme} (hn : l.kind.isName = false) (hc : l.kind ≠ .colon)
    (hb : l.kind ≠ .lBracket) (ls ms : List Lexeme) : MemberEnd (l :: ls) (l :: ms) :=
  ⟨rfl, fun i j => (not_due hn hc hb i ls).1.trans (not_due hn hc hb j ms).1.symm,
    fun i j => (not_due hn hc hb i ls).2.trans (not_due hn hc hb j ms).2.symm⟩

/-- What may be there starts with its lexeme if it is. -/
theorem leaves_optional {k : TokenKind} {p : Production} (hp : c.isAt k = true → p.Opens c) :
    leavesOf ((choose (·.isAt k) p skip).read c).made = [] ∨
      ∃ l ls, leavesOf ((choose (·.isAt k) p skip).read c).made = l :: ls ∧ l.kind = k := by
  rw [read_choose]
  split
  · rename_i hk
    obtain ⟨l, ls, hl⟩ := List.exists_cons_of_ne_nil (leaves_ne_nil_of_opens (hp hk))
    have hr := read_leaves p c
    rw [hl] at hr
    refine .inr ⟨l, ls, hl, ?_⟩
    simpa [Cursor.isAt, Cursor.kind, Cursor.peek, ← hr] using hk
  · exact .inl rfl

theorem steady_methodRest : SteadyAt MemberEnd n methodRest methodRest c := by
  rw [methodRest_eq]
  refine .append_of (S := MemberEnd) (.append_of steady_methodHead
    (steady_methodVariables.imp fun _ _ h => ⟨h.alike, h.declares⟩) fun _ rest ha => ?_)
    (steady_methodBody.imp fun _ _ h => h.alike) fun _ rest ha => ?_
  · generalize (methodHead.read c).rest = e at ha ⊢
    rw [← read_leaves methodVariables e]
    rcases leaves_optional (c := e) (k := .kwVar) (p := varSection .varSection)
      (fun h => (leads_varSection _ (.inl (kind_of_isAt h))).opens) with hl | ⟨l, ls, hl, hk⟩
    · rw [methodVariables, hl]
      exact ⟨Alike.of_id ha.alike, ha.returns⟩
    · rw [methodVariables, hl]
      have hm := memberEnd_cons (l := l) (by simp [hk, TokenKind.isName]) (by simp [hk]) (by simp [hk])
      exact ⟨Alike.of_id (hm _ _).alike, (hm _ _).returns⟩
  · generalize ((methodHead ++ methodVariables).read c).rest = e at ha ⊢
    rw [← read_leaves methodBody e]
    rcases leaves_optional (c := e) (k := .kwBegin) (p := block ++ takeIf .semicolon)
      (fun h => (leads_block (ahead_of_isAt h (by decide))).opens.append) with hl | ⟨l, ls, hl, hk⟩
    · rw [methodBody, hl]
      exact ha
    · rw [methodBody, hl]
      exact memberEnd_cons (by simp [hk, TokenKind.isName]) (by simp [hk]) (by simp [hk]) _ _

theorem steady_methodStart : SteadyAt (Alike id) n methodStart methodStart c :=
  .append steady_attributes (.whileAt (settled_of fun _ ls => by cases ls <;> rfl)
    (fun _ hd => ahead_ne_nil fun hk => by simp [hk, TokenKind.isAccessModifier] at hd) fun d hd =>
      have hc : d.ahead ≠ [] := ahead_ne_nil fun hk => by simp [hk, TokenKind.isAccessModifier] at hd
      ⟨.take hc, fun _ => leaves_ne_nil_of_opens (.take hc)⟩)

theorem steady_methodTail : SteadyAt MemberEnd n methodTail methodTail c := by
  have hc (h : c.atAny [.kwTrigger, .kwProcedure] = true) : c.ahead ≠ [] :=
    ahead_ne_nil fun hk => by simp [Cursor.atAny, hk] at h
  exact .choose_report (settled_atAny _)
    (fun h => .append_of (S := Whatever) (.take (hc h)) steady_methodRest fun _ _ _ => trivial)
    (fun h _ => leaves_ne_nil_of_opens (Opens.take (hc h)).append) _

theorem reads_methodTail (hn : (methodTail.read c).problems = []) :
    leavesOf (methodTail.read c).made ≠ [] :=
  leaves_choose_report (fun h =>
    (Opens.take (ahead_ne_nil fun hk => by simp [Cursor.atAny, hk] at h)).append) hn

theorem steady_method : SteadyAt MemberEnd n method method c :=
  .mark_reading (settled_of fun _ ls => by cases ls <;> rfl) steady_methodStart steady_methodTail
    reads_methodTail

/-- A procedure without its attributes. -/
def plainMethod : Production := whileAt (·.kind.isAccessModifier) take ++ methodTail

theorem of_method (hn : (method.read c).problems = []) :
    (attributes.read c).problems = [] ∧ (plainMethod.read (attributes.read c).rest).problems = [] := by
  obtain ⟨hs, ht⟩ := List.append_eq_nil_iff.mp hn
  obtain ⟨ha, hm⟩ := List.append_eq_nil_iff.mp hs
  exact ⟨ha, List.append_eq_nil_iff.mpr ⟨hm, ht⟩⟩

theorem leaves_method : leavesOf (method.read c).made = leavesOf (attributes.read c).made ++
    leavesOf (plainMethod.read (attributes.read c).rest).made := by
  simp only [method, read_mark, methodStart, plainMethod, read_append, leavesOf, leaves,
    List.append_nil, leavesOf_append, List.append_assoc]

/-- A procedure does not start with a name. -/
theorem of_plainMethod (hn : (plainMethod.read c).problems = []) :
    leavesOf (plainMethod.read c).made ≠ [] ∧ c.kind.isName = false := by
  rw [plainMethod, read_append] at hn ⊢
  obtain ⟨-, ht⟩ := List.append_eq_nil_iff.mp hn
  rw [leavesOf_append]
  refine ⟨List.append_ne_nil_of_right_ne_nil _ (reads_methodTail ht), Bool.eq_false_iff.mpr fun hk => ?_⟩
  have hm : c.kind.isAccessModifier = false ∧ c.atAny [.kwTrigger, .kwProcedure] = false := by
    revert hk
    simp only [Cursor.atAny]
    cases c.kind <;> decide
  rw [read_whileAt_of_not _ _ (by simp [hm.1])] at ht
  simp [methodTail, hm.2] at ht

/-- A procedure is neither a return value nor a variable, whatever follows. -/
theorem not_due_method (hc : AtMethod c) (hn : (method.read c).problems = []) (i : Nat)
    (more : List Lexeme) :
    atReturnValue ⟨i, leavesOf (method.read c).made ++ more⟩ = false ∧
      atVariable ⟨i, leavesOf (method.read c).made ++ more⟩ = false := by
  constructor
  · have hk : Cursor.kind ⟨i, leavesOf (method.read c).made ++ more⟩ = c.kind :=
      peek_of_leaves (read_leaves method c)
        (List.length_pos_iff.mpr (leaves_ne_nil_of_opens (leads_method hc).opens)) i more
    rw [atReturnValue, Cursor.isAt, hk]
    rcases hc with h | h | h | h
    · simp [h, TokenKind.isName]
    · simp [h, TokenKind.isName]
    · simp [h, TokenKind.isName]
    · revert h
      cases c.kind <;> simp [TokenKind.isAccessModifier, TokenKind.isName]
  · obtain ⟨ha, hp⟩ := of_method hn
    obtain ⟨hp, hk⟩ := of_plainMethod hp
    have hr := read_leaves plainMethod (attributes.read c).rest
    rw [leaves_method, List.append_assoc, atVariable, afterAttributes_append ha hp hr]
    obtain ⟨l, us, hu⟩ := List.exists_cons_of_ne_nil hp
    rw [hu] at hr ⊢
    have hk : l.kind.isName = false := by simpa [Cursor.kind, Cursor.peek, ← hr] using hk
    cases us <;> cases more <;> simp [hk]

theorem memberEnd_method (hc : AtMethod c) (hn : (method.read c).problems = []) (ls ms : List Lexeme) :
    MemberEnd (leavesOf (method.read c).made ++ ls) (leavesOf (method.read c).made ++ ms) :=
  have h := not_due_method hc hn
  ⟨Alike.append (leaves_ne_nil_of_opens (leads_method hc).opens) _ _,
    fun i j => (h i ls).1.trans (h j ms).1.symm, fun i j => (h i ls).2.trans (h j ms).2.symm⟩

end AlRefactor.Grammar
