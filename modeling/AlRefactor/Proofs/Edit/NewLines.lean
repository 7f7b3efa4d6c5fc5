import AlRefactor.Proofs.Declaration.Line
import AlRefactor.Proofs.Text.Lines

/-!
# New lines between the tokens of a text

A piece of text that is a token sequence of its own stays so where it is put on a line of its own: at the
start of a line with a line break behind it, or behind a line break of its own.
-/

namespace AlRefactor

open Lexeme

namespace Text

variable {t core b : Text} {L M : List Lexeme} {p : Nat}

/-- A text starts with a significant token, and its lexemes are the same whatever follows it. -/
structure Closed (core : Text) : Prop where
  leads : Leads (lex core)
  append (b : Text) : lex (core ++ b) = lex core ++ lex b

/-! ## Pieces of layout -/

theorem newline_eq_or (t : Text) : t.newline = ['\n'] ∨ t.newline = ['\r', '\n'] := by
  rw [newline]
  split
  · exact .inr rfl
  · exact .inl rfl

theorem lex_newline_append (t b : Text) : lex (t.newline ++ b) = ⟨.newline, t.newline⟩ :: lex b :=
  lex_newline t.newline_eq_or b

/-- The lexemes of some blanks. -/
def blanks (w : Text) : List Lexeme := if w = [] then [] else [⟨.whitespace, w⟩]

@[simp] theorem solid_blanks (w : Text) : solid (blanks w) = [] := by
  rw [blanks]
  split <;> rfl

@[simp] theorem flatMap_blanks (w : Text) : (blanks w).flatMap (·.text) = w := by
  rw [blanks]
  split <;> simp_all

theorem lex_blanks_append {w : Text} (hw : ∀ c ∈ w, isIndent c)
    (hb : ∀ c ∈ b.head?, Lexeme.isBlank c = false) : lex (w ++ b) = blanks w ++ lex b := by
  rw [blanks]
  split
  · rename_i h
    rw [h]
    rfl
  · rename_i h
    exact lex_blanks (fun c hc => isBlank_of_isIndent (hw c hc)) h hb

theorem head_of_leads {ls : List Lexeme} (h : lex b = ls) (hl : Leads ls) :
    ∀ c ∈ b.head?, Lexeme.isBlank c = false ∧ isLineBreak c = false := by
  obtain ⟨l, ms, rfl, hs⟩ := hl
  obtain ⟨c, v, hv, hb, hn, -⟩ := lex_solid (show lex b = [] ++ l :: ms from h) (by simpa [isSignificant] using hs)
  have ht := flatMap_text_lex b
  rw [h, List.flatMap_cons, hv] at ht
  intro d hd
  rw [← ht] at hd
  cases hd
  exact ⟨hb, hn⟩

/-! ## Lines of their own -/

/-- What stands before and behind new text on lines of its own, in a text with some lexemes before the
place and some behind it. A gap may follow. -/
inductive Joins (t gap : Text) (L M : List Lexeme) : Text → Text → Prop
  | start {w} : (∀ c ∈ w, isIndent c) → (∀ c ∈ (L.flatMap (·.text)).getLast?, isLineBreak c) →
      Joins t gap L M w (t.newline ++ gap)
  | stop {w} : (∀ c ∈ w, isIndent c) → (∃ c ∈ (L.flatMap (·.text)).getLast?, isLineBreak c = false) →
      Joins t gap L M (t.newline ++ w) []
  | within {w w'} : (∀ c ∈ w, isIndent c) → (∀ c ∈ w', isIndent c) →
      (∃ c ∈ (L.flatMap (·.text)).getLast?, isLineBreak c = false) → Leads M →
      Joins t gap L M (t.newline ++ w) (t.newline ++ (gap ++ w'))

/-- At the start of a line only blanks go before the new text, and a line break behind it. -/
theorem Joins.of_isLineStart {gap before behind : Text} (h : t.Joins gap L M before behind)
    (hb : ∀ c ∈ (L.flatMap (·.text)).getLast?, isLineBreak c) :
    (∀ c ∈ before, isIndent c) ∧ behind = t.newline ++ gap := by
  have hno (hu : ∃ c ∈ (L.flatMap (·.text)).getLast?, isLineBreak c = false) : False := by
    obtain ⟨c, hc, hcb⟩ := hu
    rw [hb c hc] at hcb
    cases hcb
  cases h with
  | start hw _ => exact ⟨hw, rfl⟩
  | stop _ hu => exact (hno hu).elim
  | within _ _ hu _ => exact (hno hu).elim

theorem lex_gap {gap : Text} (h : gap = [] ∨ gap = t.newline) :
    ∃ G, solid G = [] ∧ ∀ b, lex (gap ++ b) = G ++ lex b := by
  rcases h with rfl | rfl
  · exact ⟨[], rfl, fun _ => rfl⟩
  · exact ⟨[⟨.newline, t.newline⟩], rfl, lex_newline_append t⟩

/-- New text on lines of its own adds its tokens to those of the text, and nothing else but layout. -/
theorem Joins.spliced {gap before behind : Text} (h : t.Joins gap L M before behind) (hg : gap = [] ∨ gap = t.newline)
    (hc : t.Cut L M p) (hM : M ≠ []) (hcore : Closed core) :
    ∃ B H, solid B = [] ∧ solid H = [] ∧ B.flatMap (·.text) = before ∧
      Spliced t (L.flatMap (·.text) ++ ((before ++ (core ++ behind)) ++ M.flatMap (·.text)))
        L (B ++ (lex core ++ H)) M := by
  have hrest := lex_rest hc.eq
  generalize hm : M.flatMap (·.text) = m at hrest
  have hcm (r : Text) : ∀ c ∈ (core ++ r).head?, Lexeme.isBlank c = false ∧ isLineBreak c = false := by
    refine head_of_leads (hcore.append r) ?_
    obtain ⟨l, ms, hl, hs⟩ := hcore.leads
    exact ⟨l, ms ++ lex r, by rw [hl]; rfl, hs⟩
  have hnl (r : Text) : ∀ c ∈ (t.newline ++ r).head?, isLineBreak c := by
    rcases t.newline_eq_or with h | h <;> rw [h] <;> intro c hc <;> cases hc <;> rfl
  obtain ⟨G, hG, hgap⟩ := lex_gap hg
  have hbreak (hr : ∃ c ∈ (L.flatMap (·.text)).getLast?, isLineBreak c = false) :
      (L.flatMap (·.text)).getLast? ≠ some '\r' := by
    obtain ⟨c, hc, hb⟩ := hr
    rintro he
    rw [he] at hc
    cases hc
    cases hb
  -- Before a line, behind something, or within a line: the lexer sees only layout beside the new text.
  cases h with
  | start hw hb =>
      refine ⟨blanks before, ⟨.newline, t.newline⟩ :: G, solid_blanks _, hG, flatMap_blanks _, ?_⟩
      refine hm ▸ hc.spliced hM ⟨.inl hb, fun ⟨_, h⟩ => ?_⟩ ?_
      · -- The new text starts with a blank or with its first token.
        cases before with
        | nil =>
            rw [List.nil_append, List.append_assoc] at h
            exact absurd (hcm _ _ h).2 (by decide)
        | cons c w =>
            cases h
            exact absurd (hw _ List.mem_cons_self) (by decide)
      · rw [hm]
        simp only [List.append_assoc]
        rw [lex_blanks_append hw fun c hc => (hcm _ c hc).1, hcore.append, lex_newline_append, hgap, hrest]
        simp
  | @stop w hw hr =>
      refine ⟨⟨.newline, t.newline⟩ :: blanks w, [], solid_blanks w, rfl, by simp, ?_⟩
      refine hm ▸ hc.spliced hM ⟨.inr ?_, fun h => hbreak hr h.1⟩ ?_
      · simp only [List.append_assoc]
        exact hnl _
      · rw [hm]
        simp only [List.append_assoc, List.nil_append]
        rw [lex_newline_append, lex_blanks_append hw fun c hc => (hcm _ c hc).1, hcore.append, hrest]
        simp
  | @within w w' hw hw' hr hl =>
      refine ⟨⟨.newline, t.newline⟩ :: blanks w, ⟨.newline, t.newline⟩ :: (G ++ blanks w'), solid_blanks w, ?_,
        by simp, ?_⟩
      · rw [← List.cons_append, solid_append, solid_blanks, List.append_nil]
        exact hG
      refine hm ▸ hc.spliced hM ⟨.inr ?_, fun h => hbreak hr h.1⟩ ?_
      · simp only [List.append_assoc]
        exact hnl _
      · rw [hm]
        simp only [List.append_assoc]
        rw [lex_newline_append, lex_blanks_append hw fun c hc => (hcm _ c hc).1, hcore.append,
          lex_newline_append, hgap, lex_blanks_append hw' fun c hc => (head_of_leads hrest hl c hc).1, hrest]
        simp

/-! ## What is put on them -/

variable {v : Variable}

theorem closed_line (h : v.Declarable) : Closed v.sectionLine := by
  obtain ⟨l, us, ts, hl⟩ := h.exists_line
  exact ⟨⟨l, _, hl.lexemes, isSignificant_of_isName hl.isName⟩, h.lex_append⟩

def wordVar : Lexeme := ⟨.kwVar, "var".toList⟩

theorem lex_var_append (t b : Text) : lex ("var".toList ++ (t.newline ++ b)) = wordVar :: lex (t.newline ++ b) := by
  have h : lex ("var".toList ++ ['\n']) = [wordVar] ++ [⟨.newline, ['\n']⟩] := by decide +kernel
  refine lex_append_parted h rfl (by simp) ⟨.inr ?_, fun h => ?_⟩
  · rcases t.newline_eq_or with h | h <;> rw [h] <;> intro c hc <;> cases hc <;> rfl
  · exact absurd h.1 (by decide)

/-- A new section of variables with one line. -/
def sectionText (t w line : Text) : Text := "var".toList ++ (t.newline ++ (w ++ line))

theorem lex_sectionText {w : Text} (hw : ∀ c ∈ w, isIndent c) (h : Closed core) (t b : Text) :
    lex (t.sectionText w core ++ b) = wordVar :: ⟨.newline, t.newline⟩ :: (blanks w ++ (lex core ++ lex b)) := by
  rw [sectionText]
  simp only [List.append_assoc]
  rw [lex_var_append, lex_newline_append, lex_blanks_append hw fun c hc => ?_, h.append]
  obtain ⟨l, ms, hl, hs⟩ := h.leads
  exact (head_of_leads (h.append b) ⟨l, ms ++ lex b, by rw [hl]; rfl, hs⟩ c hc).1

theorem closed_section {w : Text} (hw : ∀ c ∈ w, isIndent c) (h : Closed core) (t : Text) :
    Closed (t.sectionText w core) := by
  have hl := lex_sectionText hw h t []
  rw [List.append_nil] at hl
  refine ⟨⟨_, _, hl, rfl⟩, fun b => ?_⟩
  rw [hl, lex_sectionText hw h]
  simp [lex]

end Text

end AlRefactor
