import AlRefactor.Proofs.Token.Joints
import AlRefactor.Proofs.Token.Stretches

/-!
# Cuts of a text between its tokens

Where a token starts or ends, a text is cut in two without a token being cut. So it is where a line starts
with nothing but blanks in front of a token.
-/

namespace AlRefactor

namespace Lexeme

variable {t a b u g : Text} {A L M : List Lexeme}

/-- The lexer makes of the rest of a text what it makes of the text there. -/
theorem lex_rest (h : lex t = L ++ M) : lex (M.flatMap (·.text)) = M := by
  induction L generalizing t with
  | nil =>
      rw [List.nil_append] at h
      rw [← h, flatMap_text_lex]
  | cons l L ih =>
      cases t with
      | nil =>
          rw [lex] at h
          cases h
      | cons c t => exact ih (List.cons.inj ((lex_cons c t).symm.trans h)).2

/-- A place in the text of some lexemes is between two of them or in one of them. -/
theorem cut_flatMap (h : A.flatMap (·.text) = u ++ g) :
    (∃ L G, A = L ++ G ∧ L.flatMap (·.text) = u ∧ G.flatMap (·.text) = g) ∨
      ∃ L l G x y, A = L ++ l :: G ∧ l.text = x ++ y ∧ x ≠ [] ∧ y ≠ [] ∧
        u = L.flatMap (·.text) ++ x ∧ g = y ++ G.flatMap (·.text) := by
  induction A generalizing u with
  | nil =>
      obtain ⟨rfl, rfl⟩ := List.append_eq_nil_iff.mp h.symm
      exact .inl ⟨[], [], rfl, rfl, rfl⟩
  | cons l A ih =>
      rw [List.flatMap_cons] at h
      rcases List.append_eq_append_iff.mp h with ⟨v, rfl, hv⟩ | ⟨y, hl, rfl⟩
      · rcases ih hv with ⟨L, G, rfl, rfl, rfl⟩ | ⟨L, m, G, x, y, rfl, hm, hx, hy, rfl, rfl⟩
        · exact .inl ⟨l :: L, G, rfl, rfl, rfl⟩
        · exact .inr ⟨l :: L, m, G, x, y, rfl, hm, hx, hy, by simp, rfl⟩
      · rcases List.eq_nil_or_concat y with rfl | ⟨z, c, hz⟩
        · rw [List.append_nil] at hl
          exact .inl ⟨[l], A, rfl, by simp [hl], rfl⟩
        · cases u with
          | nil => exact .inl ⟨[], l :: A, rfl, rfl, by rw [List.flatMap_cons, hl]; rfl⟩
          | cons d u => exact .inr ⟨[], l, A, d :: u, y, rfl, hl, by simp, by simp [hz], rfl, rfl⟩

/-- Lexemes without anything but blanks are layout. -/
theorem solid_of_blanks (h : lex t = L ++ (A ++ M)) (hb : ∀ c ∈ A.flatMap (·.text), isBlank c) :
    solid A = [] := by
  refine List.filter_eq_nil_iff.mpr fun l hl hs => ?_
  obtain ⟨as, bs, rfl⟩ := List.append_of_mem hl
  rw [List.append_assoc, ← List.append_assoc L] at h
  obtain ⟨c, v, hv, hc, -, -⟩ := lex_solid h (by simpa [isSignificant] using hs)
  have := hb c (List.mem_flatMap.mpr ⟨l, hl, by rw [hv]; exact List.mem_cons_self⟩)
  rw [hc] at this
  cases this

/-- No token reaches from one line into blanks on the next one that something stands behind. -/
theorem exists_cut_of_break (h : lex t = A ++ M) (hM : M ≠ []) (ha : A.flatMap (·.text) = u ++ g)
    (hu : ∀ c ∈ u.getLast?, isLineBreak c) (hg : ∀ c ∈ g, isBlank c) :
    ∃ L G, A = L ++ G ∧ L.flatMap (·.text) = u ∧ G.flatMap (·.text) = g := by
  refine (cut_flatMap ha).resolve_right fun ⟨L, l, G, x, y, hA, hl, hx, hy, hux, hgy⟩ => ?_
  rw [hA, List.append_assoc, List.cons_append] at h
  obtain ⟨w, c, rfl⟩ := (List.eq_nil_or_concat x).resolve_left hx
  have hc : isLineBreak c := hu c (by rw [hux]; simp)
  have hcl : c ∈ l.text := by rw [hl]; simp
  have hbl : ∀ d ∈ y, isBlank d := fun d hd => hg d (by rw [hgy]; exact List.mem_append_left _ hd)
  have hun : ¬ ∀ d ∈ l.text, isLineBreak d = false := fun h => by
    rw [h c hcl] at hc
    cases hc
  cases hk : l.kind.isTrivia with
  | false =>
      obtain ⟨_, _, -, -, -, hd⟩ := lex_solid h hk
      exact hd.elim hun fun hn => hM (List.append_eq_nil_iff.mp hn).2
  | true =>
      have hmatch := matches_of_mem_lex (show l ∈ lex t by rw [h]; simp) fun he => by rw [he] at hk; cases hk
      obtain ⟨z, d, rfl⟩ := (List.eq_nil_or_concat y).resolve_left hy
      have hlast : l.text.getLast? = some d := by
        rw [hl, show z.concat d = z ++ [d] from List.concat_eq_append, ← List.append_assoc, List.getLast?_concat]
      -- Neither a line break nor a comment ends with a blank.
      have hd : isBlank d := hbl d (by simp)
      rcases unbroken_or hmatch with h | h | ⟨v, h, -⟩
      · exact hun h
      · simp only [List.mem_cons, List.not_mem_nil, or_false] at h
        rcases h with h | h | h <;> rw [h] at hlast <;> cases hlast <;> cases hd
      · have hv : '/' :: '*' :: (v ++ ['*', '/']) = ('/' :: '*' :: v ++ ['*']) ++ ['/'] := by simp
        rw [h, hv, List.getLast?_concat] at hlast
        cases hlast
        cases hd

end Lexeme

namespace Text

open Lexeme

variable {t : Text} {L M A : List Lexeme} {p k : Nat}

/-- The lexemes of a text up to an offset, and those from the offset on. -/
structure Cut (t : Text) (L M : List Lexeme) (p : Nat) : Prop where
  eq : lex t = L ++ M
  size_eq : size (L.flatMap (·.text)) = p

theorem Cut.text_eq (h : t.Cut L M p) : t = L.flatMap (·.text) ++ M.flatMap (·.text) := by
  rw [← List.flatMap_append, ← h.eq, flatMap_text_lex]

/-- Every token starts and ends at a cut. -/
theorem exists_cut_token {q : Token} (h : q ∈ t.tokens) :
    (∃ L M, t.Cut L M q.start) ∧ ∃ L M, t.Cut L M q.stop := by
  obtain ⟨L, M, hl, hs⟩ := exists_of_mem_place h
  rw [Nat.zero_add] at hs
  refine ⟨⟨L, _, hl, hs⟩, L ++ [q.toLexeme], M, by rw [hl]; simp, ?_⟩
  rw [List.flatMap_append, size_append, hs, Token.stop]
  simp

theorem cut_zero (t : Text) : t.Cut [] (lex t) 0 := ⟨rfl, rfl⟩

theorem cut_size (t : Text) : t.Cut (lex t) [] t.size := ⟨by simp, by rw [flatMap_text_lex]⟩

/-- Of two cuts the one at the smaller offset has the fewer lexemes in front of it. -/
theorem Cut.le {L' M' : List Lexeme} {q : Nat} (h : t.Cut L M p) (h' : t.Cut L' M' q) (hle : p ≤ q) :
    ∃ ys, L' = L ++ ys ∧ M = ys ++ M' := by
  rcases List.append_eq_append_iff.mp (h.eq.symm.trans h'.eq) with ⟨ys, rfl, rfl⟩ | ⟨ys, rfl, rfl⟩
  · exact ⟨ys, rfl, rfl⟩
  · have hs := h.size_eq
    rw [List.flatMap_append, size_append, h'.size_eq] at hs
    obtain rfl : ys = [] := List.eq_nil_iff_forall_not_mem.mpr fun l hl => by
      have hz := List.flatMap_eq_nil_iff.mp (size_eq_zero (t := ys.flatMap (·.text)) |>.mp (by omega)) l hl
      refine text_ne_nil (t := t) (l := l) ?_ hz
      rw [h.eq]
      simp [hl]
    exact ⟨[], by simp, by simp⟩

/-- In front of a cut there are no more significant tokens than in front of the next one behind it. -/
theorem Cut.solid_le (h : t.Cut L M p) (hk : ∀ q ∈ t.significant[k]?, p ≤ q.start) : (solid L).length ≤ k := by
  by_contra hlt
  have hs : ((place 0 L).filter (·.isSignificant))[k]? = t.significant[k]? := by
    rw [significant, tokens, h.eq, place_append, List.filter_append, List.getElem?_append_left]
    rw [length_solid_place]
    omega
  have hlen : k < ((place 0 L).filter (·.isSignificant)).length := by
    rw [length_solid_place]
    omega
  obtain ⟨as, bs, hL, -, ha, -⟩ := exists_of_getElem? (List.getElem?_eq_getElem hlen)
  have hle := hk _ (hs ▸ List.getElem?_eq_getElem hlen)
  generalize ((place 0 L).filter (·.isSignificant))[k] = q at hL ha hle
  have hz : size q.text ≠ 0 := fun hz =>
    text_ne_nil (t := t) (l := q.toLexeme) (by rw [h.eq, hL]; simp) (size_eq_zero.mp hz)
  have hp := h.size_eq
  rw [hL, List.flatMap_append, List.flatMap_cons, size_append, size_append] at hp
  omega

/-- A line starts at a cut if the text in front of it ends with a line break. -/
theorem Cut.isLineStart (h : t.Cut L M p) (hs : t.isLineStart p) :
    ∀ c ∈ (L.flatMap (·.text)).getLast?, isLineBreak c := by
  intro c hc
  rw [h.text_eq, ← h.size_eq, isLineStart_append] at hs
  have hb := hs c hc
  rwa [isBreak, Bool.or_comm] at hb

/-- Behind a line break a line starts. -/
theorem Cut.startsLine (h : t.Cut L M p) (hb : ∀ c ∈ (L.flatMap (·.text)).getLast?, isLineBreak c) :
    t.startsLine? p = some true := by
  have ht := h.text_eq
  obtain rfl := h.size_eq
  generalize L.flatMap (·.text) = a at *
  obtain ⟨u, g, rfl, hl, hg, -⟩ := lineStart_append a (M.flatMap (·.text))
  obtain rfl : g = [] := by
    rcases List.eq_nil_or_concat g with rfl | ⟨g, c, rfl⟩
    · rfl
    · have hc := hg c (by simp)
      rw [isBreak, Bool.or_comm, ← isLineBreak, hb c (by simp)] at hc
      cases hc
  rw [← ht] at hl
  rw [startsLine?, hl, List.append_nil]
  have hs := slice?_append u [] (M.flatMap (·.text))
  rw [size, Nat.add_zero, List.nil_append, ← List.append_nil u, ← ht, List.append_nil] at hs
  rw [hs]
  rfl

/-- A significant token with something behind it does not end with a line break. -/
theorem Cut.unbroken (h : t.Cut L M p) (hL : Closes L) (hM : M ≠ []) :
    ∃ c ∈ (L.flatMap (·.text)).getLast?, isLineBreak c = false := by
  obtain ⟨ms, l, rfl, hl⟩ := hL
  have he := h.eq
  rw [List.append_assoc, List.singleton_append] at he
  obtain ⟨d, v, hv, -, -, hn⟩ := lex_solid he (by simpa [isSignificant] using hl)
  rw [List.flatMap_append, List.flatMap_singleton, hv, List.getLast?_append_cons, ← hv]
  have hne : l.text ≠ [] := by simp [hv]
  exact ⟨_, List.getLast?_eq_some_getLast hne, hn.resolve_right hM _ (List.getLast_mem hne)⟩

theorem Cut.ne_nil (h : t.Cut L M p) (hlt : (solid L).length < (solid (lex t)).length) : M ≠ [] := by
  rintro rfl
  rw [h.eq, List.append_nil] at hlt
  exact Nat.lt_irrefl _ hlt

/-- Where a token is the first one on its line but for blanks, the line starts at a cut. -/
theorem Cut.exists_line (h : t.Cut A M p) (hM : M ≠ []) (hs : t.startsLine? p = some true) :
    ∃ L G, A = L ++ G ∧ t.Cut L (G ++ M) (t.lineStart p) ∧ solid G = [] ∧
      (∀ c ∈ (L.flatMap (·.text)).getLast?, isLineBreak c) := by
  have ht := h.text_eq
  obtain rfl := h.size_eq
  generalize ha : A.flatMap (·.text) = a at *
  obtain ⟨u, g, rfl, hl, -, hu⟩ := lineStart_append a (M.flatMap (·.text))
  rw [← ht] at hl
  have hg : ∀ c ∈ g, Lexeme.isBlank c := by
    rw [startsLine?, hl, size_append, ht, List.append_assoc, slice?_append] at hs
    exact fun c hc => isBlank_of_isIndent (List.all_eq_true.mp (Option.some.inj hs) c hc)
  have hb : ∀ c ∈ u.getLast?, isLineBreak c := by
    rcases hu with rfl | ⟨w, c, rfl, hc⟩
    · intro c hc
      cases hc
    · intro d hd
      rw [List.getLast?_concat] at hd
      cases hd
      rw [isBreak, Bool.or_comm] at hc
      exact hc
  obtain ⟨L, G, rfl, hL, hG⟩ := exists_cut_of_break h.eq hM ha hb hg
  refine ⟨L, G, rfl, ⟨by rw [h.eq, List.append_assoc], by rw [hl, hL]⟩, ?_, by rwa [hL]⟩
  exact solid_of_blanks (by rw [h.eq, List.append_assoc]) (by rwa [hG])

/-- Between the tokens of a text another one is put. -/
theorem Cut.spliced {s : Text} {S : List Lexeme} (h : t.Cut L M p) (hM : M ≠ [])
    (hp : Parted (L.flatMap (·.text)) (s ++ M.flatMap (·.text)))
    (hs : lex (s ++ M.flatMap (·.text)) = S ++ M) :
    Spliced t (L.flatMap (·.text) ++ (s ++ M.flatMap (·.text))) L S M := by
  refine ⟨h.eq, ?_⟩
  have ht := h.eq
  rw [h.text_eq] at ht
  rw [lex_append_parted ht rfl ?_ hp, hs]
  obtain ⟨l, M, rfl⟩ := List.exists_cons_of_ne_nil hM
  exact fun hn => text_ne_nil (t := t) (l := l) (by rw [h.eq]; simp)
    (List.flatMap_eq_nil_iff.mp hn l List.mem_cons_self)

end Text

end AlRefactor
