import AlRefactor.Proofs.Token.Names
import AlRefactor.Session.Dialogue

/-!
# Names that are asked for

A new name is refused just if it is no identifier or something in the scope has it. Who is asked for one is asked again
after every name that is refused, until one is accepted or the question is cancelled; where nobody is asked, numbers are
tried until a name is free. Either way the name that comes out is one that would not be refused.
-/

namespace AlRefactor

open Lexeme Text

/-! ## New names -/

namespace TakenNames

variable {s : TakenNames} {name : Text}

/-- Nothing speaks against an identifier that nothing in the scope has for a name. -/
theorem conflict?_eq_none_iff :
    s.conflict? name = none ↔ name.isIdentifier ∧ ∀ t ∈ s.all, t.sameName name = false := by
  rw [conflict?]
  dsimp only
  by_cases hi : name.isIdentifier
  · have hn : name.trim.isEmpty = false := by
      simpa [List.isEmpty_iff] using trim_ne_nil_of_isIdentifier hi
    rw [if_neg (by simp [hn]), if_neg (by simp [hi]), and_iff_right hi]
    simp only [all, Option.or_eq_none_iff, Option.map_eq_none_iff, List.find?_eq_none, List.forall_mem_append,
      Bool.not_eq_true, and_assoc]
  · refine iff_of_false (fun h => ?_) fun h => hi h.1
    split at h
    · cases h
    · rw [if_pos (by simp [hi])] at h
      cases h

end TakenNames

/-! ## Answers -/

namespace Dialogue

/-- How a question ends: with the first answer that is accepted, with a cancellation or without a further answer. Every
answer in front of that is rejected for its reason, and those behind it are left for later questions. -/
inductive Settled (reject : Text → Option Text) :
    List (Option Text) → Option Text → List (Text × Text) → List (Option Text) → Prop where
  | accepted {rejected left answer} : (∀ e ∈ rejected, reject e.1 = some e.2) → reject answer = none →
      Settled reject (rejected.map (fun e => some e.1) ++ some answer :: left) (some answer) rejected left
  | cancelled {rejected left} : (∀ e ∈ rejected, reject e.1 = some e.2) →
      Settled reject (rejected.map (fun e => some e.1) ++ none :: left) none rejected left
  | unanswered {rejected} : (∀ e ∈ rejected, reject e.1 = some e.2) →
      Settled reject (rejected.map fun e => some e.1) none rejected []

variable {reject : Text → Option Text} {answers left : List (Option Text)} {accepted : Option Text}
  {rejected : List (Text × Text)} {answer reason : Text}

/-- One more answer that is rejected at once. -/
theorem Settled.cons (ha : reject answer = some reason) (h : Settled reject answers accepted rejected left) :
    Settled reject (some answer :: answers) accepted ((answer, reason) :: rejected) left := by
  have hall {es : List (Text × Text)} (h : ∀ e ∈ es, reject e.1 = some e.2) :
      ∀ e ∈ (answer, reason) :: es, reject e.1 = some e.2 := List.forall_mem_cons.mpr ⟨ha, h⟩
  cases h with
  | accepted hr h => exact .accepted (hall hr) h
  | cancelled hr => exact .cancelled (hall hr)
  | unanswered hr => exact .unanswered (hall hr)

theorem Settled.reject_eq_none (h : Settled reject answers (some answer) rejected left) : reject answer = none := by
  cases h with
  | accepted _ h => exact h

theorem settled_firstAccepted (reject : Text → Option Text) (answers : List (Option Text)) :
    Settled reject answers (firstAccepted reject answers).1 (firstAccepted reject answers).2.1
      (firstAccepted reject answers).2.2 := by
  have hnil : ∀ e ∈ ([] : List (Text × Text)), reject e.1 = some e.2 := fun _ he => absurd he List.not_mem_nil
  fun_induction firstAccepted reject answers with
  | case1 => exact .unanswered hnil
  | case2 rest => exact .cancelled hnil
  | case3 answer rest hr => exact .accepted hnil hr
  | case4 answer rest reason hr accepted rejected left hf ih =>
      rw [hf] at ih
      exact ih.cons hr

/-! ## Names of return values -/

theorem isPlainName_standardReturnName : standardReturnName.IsPlainName :=
  ⟨'R', "eturnValue".toList, rfl, rfl, List.all_eq_true.mp (by decide)⟩

/-- The standard name is accepted if it is not taken, with or without a number. -/
theorem conflict?_standardReturnName (s : TakenNames) :
    (s.conflict? standardReturnName = none ↔ ∀ t ∈ s.all, t.sameName standardReturnName = false) ∧
      ∀ n, s.conflict? (standardReturnName ++ ofNat n) = none ↔
        ∀ t ∈ s.all, t.sameName (standardReturnName ++ ofNat n) = false := by
  have hi : standardReturnName.isIdentifier := by
    refine isPlainName_standardReturnName.isIdentifier_iff.mpr fun ⟨e, he, hw⟩ => ?_
    have hk : keywords.all fun e => standardReturnName.map foldCase != e.1.toList := by decide
    simpa [hw] using List.all_eq_true.mp hk e he
  refine ⟨?_, fun n => ?_⟩
  · rw [TakenNames.conflict?_eq_none_iff, and_iff_right hi]
  · rw [TakenNames.conflict?_eq_none_iff, and_iff_right (isPlainName_standardReturnName.isIdentifier_numbered n)]

/-- Where nobody is asked, a return value gets the standard name, with the least number from 2 on with which it is
accepted if it is not accepted without one. Somebody who is asked gives the name with the first answer before a
cancellation that is accepted without the white space around it, all answers before it are recorded as rejected, and
there is no name if no answer is accepted. A name is accepted just if it is one token, a plain or a quoted identifier,
and nothing in the scope has the name up to case and quotes. -/
theorem askForReturnName_accepted (s : TakenNames) (requests : List Request) :
    (∃ name, askForReturnName ⟨.silent, requests⟩ s = (some name, ⟨.silent, requests⟩) ∧
        FirstFree (fun name => s.conflict? name = none) standardReturnName (s.all.length + 1) name) ∧
      (∀ picks answers, ∃ answer rejected left,
        Settled (fun t => (s.conflict? t.trim).map (·.message)) answers answer rejected left ∧
          askForReturnName ⟨.scripted picks answers, requests⟩ s =
            (answer.map trim, ⟨.scripted picks left,
              requests ++ [.text ⟨"Name of the return value", "ReturnValue"⟩ rejected]⟩)) ∧
      ∀ name, s.conflict? name = none ↔
        (∃ k : TokenKind, k.isName ∧ lex name = [⟨k, name⟩]) ∧ ∀ t ∈ s.all, t.unquote.lower ≠ name.unquote.lower := by
  refine ⟨⟨_, rfl, ?_⟩, fun picks answers => ⟨_, _, _, settled_firstAccepted _ answers, rfl⟩, fun name => ?_⟩
  · obtain ⟨hb, hn⟩ := conflict?_standardReturnName s
    exact (firstFree_fresh s.all standardReturnName).congr hb.symm fun n => (hn n).symm
  · rw [TakenNames.conflict?_eq_none_iff, isIdentifier_iff_lex]
    simp only [Bool.eq_false_iff, ne_eq, sameName_iff]

end Dialogue

end AlRefactor
