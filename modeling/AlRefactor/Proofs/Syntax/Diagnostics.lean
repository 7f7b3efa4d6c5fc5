import AlRefactor.Proofs.Syntax.Laid
import AlRefactor.Proofs.Token.Seams

/-!
# Where problems are met

A production only goes on, and what it notes it notes at the lexeme that it has come to. So the problems of a text are
in the order of their places, whichever way the grammar recovers in between, and each of them is at a significant token
or at the end of the last one.
-/

namespace AlRefactor

open SyntaxTree

namespace Production

variable {ω : Type} {m : Assembly ω} {p q : Cursor → Outcome ω} {a : Outcome ω} {c : Cursor} {n : Nat}

/-- What a production that set out at a number of lexemes came to: it has not gone back, and its problems are met
between its ends, one behind the other. -/
structure InOrder (n : Nat) (a : Outcome ω) : Prop where
  onward : n ≤ a.rest.read
  within : ∀ e ∈ a.problems, n ≤ e.2 ∧ e.2 ≤ a.rest.read
  ordered : a.problems.Pairwise (·.2 ≤ ·.2)

namespace InOrder

/-- Two results one behind the other, whatever is made of them. -/
theorem followed {b : Outcome ω} {made : ω} {single : Bool} (ha : InOrder n a) (hb : InOrder a.rest.read b) :
    InOrder n ⟨made, single, a.problems ++ b.problems, b.rest⟩ where
  onward := Nat.le_trans ha.onward hb.onward
  within e he := by
    rcases List.mem_append.mp he with he | he
    · exact ⟨(ha.within e he).1, Nat.le_trans (ha.within e he).2 hb.onward⟩
    · exact ⟨Nat.le_trans ha.onward (hb.within e he).1, (hb.within e he).2⟩
  ordered := List.pairwise_append.mpr ⟨ha.ordered, hb.ordered, fun d hd e he =>
    Nat.le_trans (ha.within d hd).2 (hb.within e he).1⟩

theorem idle : InOrder c.read (m.idle c) :=
  ⟨Nat.le_refl _, fun _ he => absurd he List.not_mem_nil, .nil⟩

theorem leaf : InOrder c.read (m.leaf c) := by
  obtain ⟨n, ls⟩ := c
  cases ls with
  | nil => exact ⟨Nat.le_refl _, fun _ he => absurd he List.not_mem_nil, .nil⟩
  | cons l ls => exact ⟨Nat.le_succ _, fun _ he => absurd he List.not_mem_nil, .nil⟩

theorem report {made : ω} {problem : Problem} : InOrder c.read ⟨made, false, [(problem, c.read)], c⟩ := by
  refine ⟨Nat.le_refl _, fun e he => ?_, List.pairwise_singleton ..⟩
  rw [List.mem_singleton.mp he]
  exact ⟨Nat.le_refl _, Nat.le_refl _⟩

theorem rounds (test : Cursor → Bool) (hp : ∀ c, InOrder c.read (p c)) (k : Nat) (c : Cursor) :
    InOrder c.read (m.rounds test p k c) := by
  induction k generalizing c with
  | zero => exact idle
  | succ k ih =>
      simp only [Assembly.rounds]
      split
      · exact (hp c).followed (ih _)
      · exact idle

theorem grown (kind : Cursor → Option NodeKind) (hq : ∀ c, InOrder c.read (q c)) (k : Nat) (ha : InOrder n a) :
    InOrder n (m.grown kind q k a) := by
  induction k generalizing a with
  | zero => exact ha
  | succ k ih =>
      simp only [Assembly.grown]
      split
      · exact ha
      · exact ih (ha.followed (hq _))

end InOrder

/-- No production goes back, and it meets its problems on the way. -/
theorem inOrder_run (m : Assembly ω) (p : Production) (c : Cursor) : InOrder c.read (p.run m c) := by
  induction p generalizing c with
  | skip => exact .idle
  | take => exact .leaf
  | report problem => exact .report
  | andThen p q ihp ihq => exact (ihp c).followed (ihq _)
  | look next ih => exact ih c c
  | whileAt test p ih => exact .rounds test ih _ c
  | mark p kind q ihp ihq => exact (ihp c).followed (ihq _)
  | grow p kind q ihp ihq =>
      rw [run]
      split
      · exact .grown kind ihq _ (ihp c)
      · exact ihp c

end Production

/-! ## Places in the text -/

namespace Diagnostic

variable {text : Text} {i j : Nat}

/-- Where the last significant token of a text ends, or 0 if there is none. -/
def lastStop (text : Text) : Nat := (text.significant.getLast?.map (·.stop)).getD 0

theorem place_eq (text : Text) (i : Nat) :
    (∃ p, text.significant[i]? = some p ∧ place text.significant i = p.span) ∨
      text.significant.length ≤ i ∧ place text.significant i = Span.empty (lastStop text) := by
  rw [place]
  cases h : text.significant[i]? with
  | some p => exact .inl ⟨p, rfl, rfl⟩
  | none => exact .inr ⟨List.getElem?_eq_none_iff.mp h, rfl⟩

theorem significant_pairwise (text : Text) : text.significant.Pairwise fun p q => p.stop ≤ q.start :=
  (Lexeme.place_pairwise 0 _).1.sublist List.filter_sublist

/-- Every significant token starts before the last one ends. -/
theorem start_le_lastStop {p : Token} (hp : p ∈ text.significant) : p.start ≤ lastStop text := by
  obtain ⟨ps, q, hq⟩ := List.eq_nil_or_concat' text.significant |>.resolve_left (List.ne_nil_of_mem hp)
  have hl : lastStop text = q.stop := by rw [lastStop, hq, List.getLast?_concat]; rfl
  have hs := significant_pairwise text
  have hqm : q ∈ text.significant := by rw [hq]; simp
  have hlt := Text.start_lt_stop hqm
  rw [hq] at hp hs
  rw [hl]
  rcases List.mem_append.mp hp with hp | hp
  · have hpq := (List.pairwise_append.mp hs).2.2 p hp q (List.mem_singleton_self q)
    have := Text.start_lt_stop (t := text) (p := p) (by rw [hq]; exact List.mem_append_left _ hp)
    omega
  · rw [List.mem_singleton.mp hp]
    omega

/-- Later lexemes have later places. -/
theorem start_place_mono (hij : i ≤ j) :
    (place text.significant i).start ≤ (place text.significant j).start := by
  rcases Nat.lt_or_eq_of_le hij with hlt | rfl
  · rcases place_eq text i with ⟨p, hp, hi⟩ | ⟨hl, hi⟩
    · rw [hi]
      rcases place_eq text j with ⟨q, hq, hj⟩ | ⟨-, hj⟩
      · obtain ⟨hil, rfl⟩ := List.getElem?_eq_some_iff.mp hp
        obtain ⟨hjl, rfl⟩ := List.getElem?_eq_some_iff.mp hq
        rw [hj]
        have := List.pairwise_iff_getElem.mp (significant_pairwise text) i j hil hjl hlt
        exact Nat.le_trans (Nat.le_add_right _ _) this
      · rw [hj]
        exact start_le_lastStop (List.mem_of_getElem? hp)
    · rcases place_eq text j with ⟨q, hq, -⟩ | ⟨-, hj⟩
      · have := (List.getElem?_eq_some_iff.mp hq).1
        omega
      · exact Nat.le_of_eq (by rw [hi, hj])
  · exact Nat.le_refl _

end Diagnostic

namespace SyntaxTree

variable {text : Text}

/-- The problems of a tree are those that the grammar met, at their places. -/
theorem diagnostics_eq (text : Text) :
    (parse text).diagnostics = (reading text).2.map fun e => ⟨e.1, Diagnostic.place text.significant e.2⟩ := by
  obtain ⟨_, _, _, _, _, hu⟩ := exists_laid text
  rw [parse, hu, List.map_nil, List.append_nil]

/-- The problems of a text come in the order of their starts. Each is at a significant token, or has an empty range at
the end of the last one, and there is none without a significant token. -/
theorem diagnostics_ordered (text : Text) :
    (parse text).diagnostics.Pairwise (fun d e => d.span.start ≤ e.span.start) ∧
      (∀ d ∈ (parse text).diagnostics, (∃ p ∈ text.significant, d.span = p.span) ∨
        d.span = Span.empty (Diagnostic.lastStop text)) ∧
      (text.significant = [] → (parse text).diagnostics = []) := by
  rw [diagnostics_eq]
  refine ⟨?_, fun d hd => ?_, fun hs => ?_⟩
  · rw [List.pairwise_map]
    have hr := Production.inOrder_run .events Grammar.file ⟨0, text.significant.map (·.toLexeme)⟩
    exact hr.ordered.imp Diagnostic.start_place_mono
  · obtain ⟨e, -, rfl⟩ := List.mem_map.mp hd
    rcases Diagnostic.place_eq text e.2 with ⟨p, hp, he⟩ | ⟨-, he⟩
    · exact .inl ⟨p, List.mem_of_getElem? hp, he⟩
    · exact .inr he
  · rw [reading, hs]
    rfl

/-- A file with a word that is out of place and without its end, and one that is just a comment. -/
theorem diagnostics_ordered_unfinished :
    let t : Text := "x codeunit 1 A \x7b procedure // B".toList
    let u : Text := "// B".toList
    (parse t).diagnostics.map (·.span) = [⟨0, 1⟩, ⟨26, 26⟩, ⟨26, 26⟩, ⟨26, 26⟩] ∧
      (parse t).diagnostics.Pairwise (fun d e => d.span.start ≤ e.span.start) ∧
      u.significant = [] ∧ (parse u).diagnostics = [] := by
  intro t u
  have hu : u.significant = [] := by decide +kernel
  exact ⟨by decide +kernel, (diagnostics_ordered t).1, hu, (diagnostics_ordered u).2.2 hu⟩

end SyntaxTree

end AlRefactor
