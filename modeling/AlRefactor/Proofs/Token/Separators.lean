import AlRefactor.Proofs.Token.Joints

/-!
# Texts put together at a separator

Semicolons, round brackets, blanks, line breaks and what comments and directives start with end every
token in front of them but one of these and what is not closed. So one of them may stand where another one
did, whatever follows it.
-/

namespace AlRefactor.Lexeme

open TokenKind

/-- What may stand behind some lexemes in place of what does: a separator, where the last of them is
neither layout nor an error, and what stands there. -/
inductive Frees (L : List Lexeme) (v : Text) (d : Char) : Prop
  | closed {ms : List Lexeme} {l : Lexeme} : L = ms ++ [l] → l.isSignificant → l.kind ≠ .error → Frees L v d
  | same {v' : Text} : v = d :: v' → isBlank d = false → isLineBreak d = false → Frees L v d

variable {k : TokenKind} {c d : Char} {u v w r y : Text} {l : Lexeme} {L M : List Lexeme}

theorem Frees.tail (h : Frees (l :: L) v d) (hL : L ≠ []) : Frees L v d := by
  cases h with
  | @closed ms m hl hs he =>
      cases ms with
      | nil => exact absurd (List.cons.inj hl).2 hL
      | cons n ms => exact .closed (List.cons.inj hl).2 hs he
  | same hv hb hn => exact .same hv hb hn

theorem runLength_all (t : Text) : runLength (fun _ => true) t = t.length := by
  rw [runLength, List.takeWhile_eq_self_iff.mpr fun _ _ => rfl]

namespace Frees

variable (hf : Frees L v d) (h : lex (c :: (u ++ v)) = L ++ M) (hL : L.flatMap (·.text) = c :: u)

include hf h hL

/-- A token that is layout or an error does not run on up to where something else may follow. -/
theorem not_runs {p : Char → Bool} {x : Text} {a : Nat}
    (hk : (scan c (u ++ v)).1.isTrivia ∨ (scan c (u ++ v)).1 = .error) (hx : ∀ e ∈ x, p e)
    (hu : u.length = a + x.length) (hl : (scan c (u ++ v)).2 = a + runLength p (x ++ v))
    (hd : isBlank d = false → isLineBreak d = false → p d) : False := by
  obtain ⟨ls, rfl, hle, hls, hrest⟩ := of_lex_cons h hL
  rw [runLength_append hx] at hl
  rw [List.drop_eq_nil_of_le (by omega)] at hls
  have hn : ls = [] := List.eq_nil_iff_forall_not_mem.mpr fun m hm =>
    text_ne_nil (l := m) (by rw [hrest]; exact List.mem_append_left _ hm) (List.flatMap_eq_nil_iff.mp hls m hm)
  cases hf with
  | @closed ms m hm hs he =>
      rw [hn] at hm
      obtain ⟨-, hm⟩ := List.append_inj' (show [] ++ [_] = ms ++ [m] from hm) rfl
      obtain rfl := List.singleton_inj.mp hm
      rcases hk with hk | hk
      · simp [isSignificant, hk] at hs
      · exact he hk
  | @same v' hv hb hr =>
      have hr : 1 ≤ runLength p v := by
        rw [hv, runLength, List.takeWhile_cons_of_pos (hd hb hr)]
        exact Nat.succ_le_succ (Nat.zero_le _)
      omega

theorem not_unclosed : ¬ Unclosed (c :: (u ++ v)) := fun hc => by
  have hs := scan_unclosed hc
  exact hf.not_runs h hL (p := fun _ => true) (a := 0) (x := u) (.inr (by rw [hs])) (fun _ _ => rfl)
    (Nat.zero_add _).symm (by rw [hs, runLength_all, Nat.zero_add]) fun _ _ => rfl

/-- What is not closed on its line runs on to the end of the line. -/
theorem not_open (hb : ∀ e ∈ u, isLineBreak e = false) : scan c (u ++ v) ≠ (.error, lineLength (u ++ v)) := by
  intro hs
  exact hf.not_runs h hL (p := fun c => !isLineBreak c) (a := 0) (x := u) (.inr (by rw [hs]))
    (fun e he => by rw [hb e he]; rfl) (Nat.zero_add _).symm (by rw [hs, Nat.zero_add]; rfl)
    fun _ hn => by rw [hn]; rfl

/-- A comment or a directive runs on to the end of the line. -/
theorem not_lineComment {e : Char} {x : Text} {k : TokenKind} (hu : u = e :: x) (hk : k.isTrivia)
    (hs : scan c (u ++ v) = (k, 1 + lineLength (x ++ v))) : ¬ ∀ a ∈ x, isLineBreak a = false := by
  intro hb
  exact hf.not_runs h hL (p := fun c => !isLineBreak c) (a := 1) (x := x) (.inl (by rw [hs]; exact hk))
    (fun a ha => by rw [hb a ha]; rfl) (by rw [hu, List.length_cons, Nat.add_comm]) (by rw [hs]; rfl)
    fun _ hn => by rw [hn]; rfl

omit hf h hL in
/-- No literal reaches from the last lexemes across a separator that may follow them. -/
theorem not_quotable (hf : Frees L v d) (h : lex ('\'' :: (u ++ v)) = L ++ M)
    (hL : L.flatMap (·.text) = '\'' :: u) (hd : isSeparator d) : ¬ Quotable (u ++ d :: r) := by
  induction L generalizing u with
  | nil => cases hL
  | cons l L ih =>
      intro hq
      obtain ⟨ls, hl, hle, hls, hrest⟩ := of_lex_cons h hL
      obtain ⟨-, rfl⟩ := List.cons.inj hl
      cases hc : stringLength? (u ++ v) with
      | none =>
          exact hf.not_open h hL (fun e he => unbroken_of_quotable hq e (List.mem_append_left _ he))
            (by rw [scan_quote, hc])
      | some n =>
          -- The literal ends before: behind it another one would start, with the other quote of a pair.
          rw [scan_quote, hc] at hle hls hrest
          obtain ⟨z, w, hz, rfl, hzq⟩ := of_stringLength? hc
          obtain ⟨b, rfl, -⟩ := exists_of_append (a := z ++ ['\'']) (by simpa using hz) (by simpa using hle)
          dsimp only at hls hrest
          rw [List.drop_left' (by simp)] at hls hrest
          obtain ⟨q, hq', hqq⟩ := quotable_behind (v := b ++ d :: r) hzq hq (by simp)
          cases b with
          | nil =>
              rw [(List.cons.inj hq').1] at hd
              cases hd
          | cons e b =>
              obtain ⟨rfl, rfl⟩ := List.cons.inj hq'
              refine ih (hf.tail fun hn => ?_) hrest hls hqq
              rw [hn] at hls
              cases hls

omit hf h hL in
/-- No quoted name reaches from the last lexemes across what may follow them. -/
theorem not_quoted (hf : Frees L v d) (h : lex ('"' :: (u ++ v)) = L ++ M) (hL : L.flatMap (·.text) = '"' :: u) :
    ¬ ∀ e ∈ u, e ≠ '"' ∧ isLineBreak e = false := by
  intro hq
  have hle := (of_lex_cons h hL).choose_spec.2.1
  cases hc : quotedLength? (u ++ v) with
  | none => exact hf.not_open h hL (fun e he => (hq e he).2) (by rw [scan_doubleQuote, hc])
  | some n =>
      rw [scan_doubleQuote, hc] at hle
      obtain ⟨z, w, hz, rfl, -⟩ := of_quotedLength? hc
      obtain ⟨b, rfl, -⟩ := exists_of_append (a := z ++ ['"']) (by simpa using hz) (by simpa using hle)
      exact (hq '"' (by simp)).1 rfl

omit hf h hL in
/-- A comment that goes on behind the last lexemes was closed in them before. -/
theorem infix_block {x : Text} (hf : Frees L v d) (h : lex ('/' :: '*' :: (u ++ v)) = L ++ M)
    (hL : L.flatMap (·.text) = '/' :: '*' :: u) (hu : u ++ d :: r = x ++ ['*', '/']) :
    ['*', '/'] <:+: x ++ ['*'] := by
  have hle := (of_lex_cons (u := '*' :: u) h hL).choose_spec.2.1
  have hc := hf.not_unclosed (u := '*' :: u) h hL
  obtain ⟨z, -, hz⟩ := of_append_eq_concat (u := u) (w := x ++ ['*']) (d := '/') (by simpa using hu)
    (List.cons_ne_nil _ _)
  exact hz ▸ (infix_of_scan hle hc).trans (List.prefix_append u z).isInfix

/-- What can have a separator in it does not reach from the last lexemes across one that may follow them. -/
theorem not_enclosed (hd : isSeparator d) (hs : d = '/' → (c :: u).getLast? ≠ some '/') :
    ¬ Enclosed (c :: (u ++ d :: r)) := by
  intro he
  generalize hy : c :: (u ++ d :: r) = y at he
  cases he with
  | line hb =>
      obtain ⟨rfl, hu⟩ := List.cons.inj hy
      cases u with
      | nil =>
          obtain ⟨rfl, -⟩ := List.cons.inj hu
          exact hs rfl rfl
      | cons e u =>
          obtain ⟨rfl, rfl⟩ := List.cons.inj hu
          exact hf.not_lineComment (k := .lineComment) h hL rfl rfl rfl
            fun a ha => hb a (List.mem_append_left _ ha)
  | directive ha hb =>
      obtain ⟨rfl, hu⟩ := List.cons.inj hy
      cases u with
      | nil =>
          obtain ⟨rfl, -⟩ := List.cons.inj hu
          rw [not_separator (p := Char.isAlpha) (by decide) (.inl hd)] at ha
          cases ha
      | cons e u =>
          obtain ⟨rfl, rfl⟩ := List.cons.inj hu
          exact hf.not_lineComment (k := .directive) h hL rfl rfl
            (by rw [List.cons_append, scan_hash, if_pos ha]) fun a ha => hb a (List.mem_append_left _ ha)
  | block hx =>
      obtain ⟨rfl, hu⟩ := List.cons.inj hy
      cases u with
      | nil =>
          obtain ⟨rfl, -⟩ := List.cons.inj hu
          cases hd
      | cons e u =>
          obtain ⟨rfl, hr⟩ := List.cons.inj hu
          exact hx (hf.infix_block h hL hr)
  | quoted hq =>
      obtain ⟨rfl, hu⟩ := List.cons.inj hy
      obtain ⟨x', -, rfl⟩ := of_append_eq_concat hu (List.cons_ne_nil _ _)
      exact hf.not_quoted h hL fun e he => hq e (List.mem_append_left x' he)
  | string hq =>
      obtain ⟨rfl, hu⟩ := List.cons.inj hy
      obtain ⟨x', hx', rfl⟩ := of_append_eq_concat hu (List.cons_ne_nil _ _)
      cases x' with
      | nil =>
          rw [(List.cons.inj hx').1] at hd
          cases hd
      | cons e x' =>
          rw [← (List.cons.inj hx').1] at hq
          exact hf.not_quotable h hL hd hq

/-- No rule reaches from the last lexemes across a separator that may follow them. -/
theorem not_matches (hd : isSeparator d) (hs : d = '/' → (c :: u).getLast? ≠ some '/') :
    ¬ Matches k (c :: (u ++ d :: r)) := by
  intro hk
  rcases enclosed_or hk (u := c :: u) rfl (List.cons_ne_nil c u) (.inl hd) with
    he | hb | ⟨hr, hdn⟩ | ⟨-, rfl⟩
  · exact hf.not_enclosed h hL hd hs he
  · have hsc : scan c (u ++ v) = (.whitespace, runLength isBlank (u ++ v)) := by
      unfold scan
      rw [if_pos (hb c List.mem_cons_self)]
    refine hf.not_runs h hL (p := isBlank) (a := 0) (x := u) (.inl (by rw [hsc]; rfl)) (fun e he => hb e (by simp [he]))
      (Nat.zero_add _).symm (by rw [hsc, Nat.zero_add]) fun hd' _ => ?_
    rw [hb d (by simp)] at hd'
    cases hd'
  · obtain ⟨rfl, rfl⟩ := List.cons.inj hr
    have hle := (of_lex_cons h hL).choose_spec.2.1
    refine hf.not_runs h hL (p := fun _ => false) (a := 0) (x := []) (.inl ?_) (List.forall_mem_nil _) rfl ?_
      fun _ hn => ?_
    · rw [scan_return rfl]
      rfl
    · rw [Nat.le_zero.mp hle, List.nil_append]
      cases v <;> rfl
    · rw [hdn] at hn
      cases hn
  · cases hd

/-- The first token is the same with a separator behind the last lexeme, whatever follows this. -/
theorem scan_eq (hd : isSeparator d) (hs : d = '/' → (c :: u).getLast? ≠ some '/') (w : Text) :
    scan c (u ++ d :: w) = scan c (u ++ v) := by
  have hle := (of_lex_cons h hL).choose_spec.2.1
  have hc := hf.not_unclosed h hL
  have hc' : ¬ Unclosed (c :: (u ++ d :: w)) := by
    rintro ⟨r, hr, hin⟩
    obtain ⟨rfl, hu⟩ := List.cons.inj hr
    cases u with
    | nil =>
        obtain ⟨rfl, -⟩ := List.cons.inj hu
        cases hd
    | cons e u =>
        obtain ⟨rfl, rfl⟩ := List.cons.inj hu
        exact hin ((infix_of_scan hle hc).trans (List.prefix_append u _).isInfix)
  refine scan_congr (p := c :: u) (List.prefix_append (c :: u) v) (List.prefix_append (c :: u) (d :: w))
    (Nat.lt_succ_of_le hle) (fun k y hy hpre => ?_) hc hc' fun hq hlen he => ?_
  · by_contra hlt
    obtain ⟨r, rfl⟩ := List.prefix_of_prefix_length_le (List.prefix_append (c :: u) (d :: w)) hpre
      (Nat.le_of_not_le hlt)
    have hr := (List.prefix_append_right_inj (c :: u)).mp hpre
    cases r with
    | nil => exact hlt (by simp)
    | cons e r =>
        obtain ⟨rfl, -⟩ := List.cons_prefix_cons.mp hr
        exact hf.not_matches h hL hd hs hy
  · rw [List.length_cons, Nat.add_right_cancel_iff] at hlen
    have hrun := scan_error he hc
    rw [if_pos hq] at hrun
    exact absurd (Prod.ext he hrun)
      (hf.not_open h hL fun e hm => unbroken_of_scan_error he hc hq hlen e (List.mem_cons_of_mem c hm))

end Frees

/-- A separator may stand behind the tokens of a beginning of a text instead of what does, and what follows
it does not matter. -/
theorem lex_append_separator (h : lex (u ++ v) = L ++ M) (hL : L.flatMap (·.text) = u) (hf : Frees L v d)
    (hd : isSeparator d) (hs : d = '/' → u.getLast? ≠ some '/') (w : Text) :
    lex (u ++ d :: w) = L ++ lex (d :: w) := by
  induction L generalizing u with
  | nil => rw [← hL]; rfl
  | cons l L ih =>
      have hmem : l ∈ lex (u ++ v) := by rw [h]; exact List.mem_cons_self
      obtain ⟨c, u, rfl⟩ := List.exists_cons_of_ne_nil (l := u) fun hu => by
        rw [hu, List.flatMap_cons] at hL
        exact text_ne_nil hmem (List.append_eq_nil_iff.mp hL).1
      obtain ⟨ls, hl, hle, hls, hrest⟩ := of_lex_cons h hL
      rw [hl, List.cons_append, List.cons_append, lex_cons, hf.scan_eq h hL hd hs,
        List.take_append_of_le_length hle, List.drop_append_of_le_length hle]
      obtain ⟨-, rfl⟩ := List.cons.inj hl
      cases hn : L with
      | nil =>
          rw [hn] at hls
          rw [← hls]
          rfl
      | cons m ms =>
          rw [← hn]
          refine congrArg _ (ih hrest hls (hf.tail (by rw [hn]; exact List.cons_ne_nil _ _)) fun hslash => ?_)
          have hne : u.drop (scan c (u ++ v)).2 ≠ [] := fun hd => by
            have hm : m ∈ lex (u.drop (scan c (u ++ v)).2 ++ v) := by rw [hrest, hn]; exact List.mem_cons_self
            rw [hd, hn, List.flatMap_cons] at hls
            exact text_ne_nil hm (List.append_eq_nil_iff.mp hls).1
          have hlast := hs hslash
          obtain ⟨e, r, hr⟩ := List.exists_cons_of_ne_nil hne
          rwa [show c :: u = (c :: u.take (scan c (u ++ v)).2) ++ u.drop (scan c (u ++ v)).2 by simp, hr,
            List.getLast?_append_cons, ← hr] at hlast

/-- Anything may follow a semicolon that is a token. -/
theorem lex_append_semicolon (h : lex (u ++ [';']) = L ++ [semicolon]) (v : Text) :
    lex (u ++ ';' :: v) = L ++ semicolon :: lex v := by
  have hL : L.flatMap (·.text) = u := by
    have ht := flatMap_text_lex (u ++ [';'])
    rw [h, List.flatMap_append] at ht
    exact List.append_cancel_right ht
  rw [lex_append_separator h hL (.same rfl rfl rfl) rfl (fun hd => by cases hd), lex_semicolon]

/-- The opening bracket of a list of parameters. -/
def lParen : Lexeme := ⟨.lParen, ['(']⟩

theorem lex_lParen (v : Text) : lex ('(' :: v) = lParen :: lex v := by
  rw [lex_cons]
  rfl

theorem eq_lParen (h : lex u = L ++ l :: M) (hk : l.kind = .lParen) : l = lParen := by
  have hm := matches_of_mem_lex (show l ∈ lex u by rw [h]; simp) (by rw [hk]; decide)
  obtain ⟨k, y⟩ := l
  obtain rfl : k = .lParen := hk
  obtain rfl : y = ['('] := eq_of_mark (show (['('], .lParen) ∈ marks by decide) hm
  rfl

/-- Layout, a semicolon and a closing bracket start with a separator. -/
theorem exists_separator (h : lex u = L ++ l :: M) (hk : l.kind.isTrivia ∨ l.kind = .semicolon ∨ l.kind = .rParen) :
    ∃ d w, l.text = d :: w ∧ isSeparator d ∧ (d = '/' → l.kind = .lineComment ∨ l.kind = .blockComment) := by
  have hm := matches_of_mem_lex (show l ∈ lex u by rw [h]; simp) fun he => by simp [he, isTrivia] at hk
  obtain ⟨k, y⟩ := l
  dsimp only at hk hm ⊢
  cases hm with
  | mark hm =>
      have ht : marks.all fun e => !(e.2.isTrivia || e.2 == .semicolon || e.2 == .rParen) ||
        e.1 == [';'] || e.1 == [')'] := by decide
      have ht := List.all_eq_true.mp ht _ hm
      obtain rfl | rfl : y = [';'] ∨ y = [')'] := by
        rcases hk with hk | rfl | rfl <;> simp_all
      · exact ⟨';', [], rfl, rfl, fun hd => by cases hd⟩
      · exact ⟨')', [], rfl, rfl, fun hd => by cases hd⟩
  | keyword hm =>
      have ht : keywords.all fun e => !(e.2.isTrivia || e.2 == .semicolon || e.2 == .rParen) := by decide
      have ht := List.all_eq_true.mp ht _ hm
      rcases hk with hk | rfl | rfl <;> simp_all
  | whitespace hne hb =>
      obtain ⟨d, w, rfl⟩ := List.exists_cons_of_ne_nil hne
      have hd := hb d List.mem_cons_self
      refine ⟨d, w, rfl, by rw [isSeparator, hd, Bool.or_true, Bool.true_or], ?_⟩
      rintro rfl
      cases hd
  | newline hn =>
      simp only [List.mem_cons, List.not_mem_nil, or_false] at hn
      rcases hn with rfl | rfl | rfl <;> exact ⟨_, _, rfl, rfl, fun hd => by cases hd⟩
  | lineComment => exact ⟨_, _, rfl, rfl, fun _ => .inl rfl⟩
  | blockComment => exact ⟨_, _, rfl, rfl, fun _ => .inr rfl⟩
  | directive => exact ⟨_, _, rfl, rfl, fun hd => by cases hd⟩
  | int | decimal | dateTime | string | quotedIdent | ident => simp [isTrivia] at hk

end AlRefactor.Lexeme
