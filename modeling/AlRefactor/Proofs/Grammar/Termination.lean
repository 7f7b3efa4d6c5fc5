import AlRefactor.Proofs.Grammar.Halting
import AlRefactor.Proofs.Syntax.Replay

/-!
# Reading terminates

What bounds the rounds of a repetition, the nesting of what is nested in itself and the lookahead is
the number of lexemes, and no bound cuts anything off: a file is read to its last lexeme.
-/

namespace AlRefactor.Grammar

open Production

/-- What is looked for behind attributes is what they leave of the lexemes. -/
theorem afterAttributes_suffix (d : Nat) (ls : List Lexeme) : afterAttributes d ls <:+ ls := by
  fun_induction afterAttributes d ls with
  | case1 | case3 => exact List.suffix_refl _
  | case2 _ _ _ ih | case4 _ _ _ _ ih | case5 _ _ _ _ ih | case6 _ _ _ _ ih | case7 _ _ _ _ ih
  | case8 _ _ _ _ _ _ _ ih => exact ih.trans (List.suffix_cons _ _)

/-- A production that is nested in itself starts over only behind a lexeme: it runs to its end
whatever the nested one does where no lexeme has been read. -/
structure Descending : Prop where
  expression (inner : Inner) (c : Cursor) : InnerHalts inner c.ahead.length →
    ∀ allowIn power, (expressionStep inner allowIn power).Halts c
  type (element : Production) (c : Cursor) : element.HaltsBelow c.ahead.length →
    (typeStep element).Halts c
  statement (inner : Production) (c : Cursor) : inner.LeadsBelow c.ahead.length → c.ahead ≠ [] →
    (statementStep inner).Leads c
  member (inner : Production) (c : Cursor) : inner.LeadsBelow c.ahead.length → c.ahead ≠ [] →
    (memberStep inner).Leads c

theorem descending : Descending where
  expression _ _ h _ _ := (mayLead_expressionStep h _ _).halts
  type _ _ h := (mayLead_typeStep h).halts
  statement _ _ h hc := leads_statementStep h hc
  member _ _ h hc := leads_memberStep h hc

/-- Reading terminates for all lexemes. Without a bound on rounds or nesting it runs to its end:
every round of a repetition reads a lexeme, none is taken that is not there, nesting goes on only
behind a lexeme, and what is looked for ahead is found before the lexemes end. Every node that is
opened is closed, and no lexeme is left. -/
theorem file_terminates (ls : List Lexeme) :
    Runs file ⟨0, ls⟩ (file.read ⟨0, ls⟩) ∧ Descending ∧
      (∀ depth, (balancedLength depth ls).1 ≤ ls.length ∧ clauseLength depth ls ≤ ls.length ∧
        afterAttributes depth ls <:+ ls) ∧
      Event.Balanced (Grammar.read ls).1 ∧ (file.emit ⟨0, ls⟩).rest = ⟨ls.length, []⟩ := by
  have hr : Runs file ⟨0, ls⟩ (file.read ⟨0, ls⟩) := .mark (halts_declarations _).runs .skip
  refine ⟨hr, descending, fun depth => ⟨balancedLength_le depth ls, clauseLength_le depth ls,
    afterAttributes_suffix depth ls⟩, Event.balanced_emit file _, ?_⟩
  have hc := hr.count
  have ha : (file.read ⟨0, ls⟩).rest.ahead = [] := by
    rw [file, read_node]; exact rest_declarations _
  rw [(file.agrees ⟨0, ls⟩).rest]
  generalize (file.read ⟨0, ls⟩).rest = d at hc ha
  obtain ⟨n, ms⟩ := d
  obtain rfl : ms = [] := ha
  simpa using hc

end AlRefactor.Grammar
