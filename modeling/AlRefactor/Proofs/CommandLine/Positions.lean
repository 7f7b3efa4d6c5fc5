import AlRefactor.CommandLine.Program
import AlRefactor.Proofs.Action.Faultless

/-!
# Changes as an editor gets them

A change is printed with lines and columns in place of offsets. No edit of an action starts or ends
within a line break, so an editor that reads the positions finds the same edits, and both ways to carry
out an action change the same bytes.
-/

namespace AlRefactor

open SyntaxTree Refactoring

variable {t : Text} {e : Edit} {es : List Edit} {d : Document} {span : Span}

/-- An edit with positions instead of offsets. -/
structure PlacedEdit where
  start : Position
  stop : Position
  text : Text

namespace PlacedEdit

def json (e : PlacedEdit) : JsonValue :=
  .record [("range", .ofRange e.start e.stop), ("newText", .ofText e.text)]

/-- The edit of a text that an editor takes it for. -/
def edit? (t : Text) (e : PlacedEdit) : Option Edit := do
  let start ← (LineTable.ofText t).offset? t e.start
  let stop ← (LineTable.ofText t).offset? t e.stop
  some ⟨⟨start, stop⟩, e.text⟩

end PlacedEdit

namespace OpenProject

/-- What is written item by item in a way that leads back to each item leads back to all of them. -/
theorem exists_mapM {α β γ : Type} {f : α → Except Trouble γ} {g : β → γ} {r : β → Option α}
    {as : List α} (h : ∀ a ∈ as, ∃ b, f a = .ok (g b) ∧ r b = some a) :
    ∃ bs : List β, as.mapM f = .ok (bs.map g) ∧ bs.mapM r = some as := by
  induction as with
  | nil => exact ⟨[], rfl, rfl⟩
  | cons a as ih =>
      obtain ⟨b, hf, hr⟩ := h a List.mem_cons_self
      obtain ⟨bs, hfs, hrs⟩ := ih fun c hc => h c (.tail _ hc)
      refine ⟨b :: bs, ?_, ?_⟩
      · rw [List.mapM_cons, hf, hfs]
        rfl
      · rw [List.mapM_cons, hr, hrs]
        rfl

theorem exists_placed (h : t.HasAddress e.span) :
    ∃ p : PlacedEdit, editJson t e = .ok p.json ∧ p.edit? t = some e := by
  obtain ⟨a, ha, ha'⟩ := h.start.exists_position
  obtain ⟨b, hb, hb'⟩ := h.stop.exists_position
  refine ⟨⟨a, b, e.text⟩, ?_, ?_⟩
  · rw [editJson, position, position, ha, hb]
    rfl
  · rw [PlacedEdit.edit?, ha', hb']
    rfl

variable {p : OpenProject}

/-- The edits of a document as an editor takes them. -/
def editsOf? (p : OpenProject) (d : Nat) (es : List PlacedEdit) : Option (Nat × List Edit) :=
  (es.mapM (PlacedEdit.edit? (p.text d))).map fun es => (d, es)

/-- A change is printed as positioned edits of documents, and these are taken for the edits of the
change. -/
def ReadsBack (p : OpenProject) (c : Change) : Prop :=
  ∃ cs : List (Nat × List PlacedEdit),
    p.changeJson c = .ok (.record [("changes", .record
      (cs.map fun (d, es) => ((p.path d).uri, .array (es.map (·.json)))))]) ∧
    cs.mapM (fun (d, es) => p.editsOf? d es) = some c.edits

theorem text_of_mem (hw : p.workspace.Numbered) (hd : d ∈ p.workspace.documents) :
    p.text d.id = d.text := by
  rw [text, hw.get? hd]
  rfl

theorem readsBack_of_located {c : Change} (hw : p.workspace.Numbered) (h : c.Located p.workspace) :
    p.ReadsBack c := by
  have he : ∀ entry ∈ c.edits, ∃ placed : Nat × List PlacedEdit,
      (do return ((p.path entry.1).uri,
        JsonValue.array (← entry.2.mapM (editJson (p.text entry.1)))) : Except Trouble _) =
          .ok ((p.path placed.1).uri, .array (placed.2.map (·.json))) ∧
        p.editsOf? placed.1 placed.2 = some entry := by
    intro entry he
    obtain ⟨d, hd, hi, hr⟩ := h entry he
    rw [← text_of_mem hw hd, hi] at hr
    obtain ⟨ps, hps, hps'⟩ := exists_mapM fun e he => exists_placed (hr e he)
    refine ⟨(entry.1, ps), ?_, ?_⟩
    · rw [hps]
      rfl
    · rw [editsOf?, hps']
      rfl
  obtain ⟨cs, hj, hr⟩ := exists_mapM he
  refine ⟨cs, ?_, hr⟩
  rw [changeJson, hj]
  rfl

end OpenProject

/-! ## Edits of actions -/

/-- The offset is found again from its line and column. -/
def Text.Reaches (t : Text) (n : Nat) : Prop :=
  ((LineTable.ofText t).position? t n).bind ((LineTable.ofText t).offset? t) = some n

theorem Text.Addressable.reaches {n : Nat} (h : t.Addressable n) : t.Reaches n := by
  obtain ⟨p, hp, ho⟩ := h.exists_position
  rw [Reaches, hp]
  exact ho

/-- Whatever is wrong with a text, what is offered for a range of it is refused when it is carried out,
or changes documents by edits whose ends are found again from their lines and columns and lie within no
line break. The printed change is read by an editor as the same edits of the same documents. -/
theorem Action.readsBack_offered {p : OpenProject} {q : Progress} (hw : p.workspace.Numbered)
    (hd : d ∈ p.workspace.documents) (hs : d.text.HasRange span)
    (hq : q.source.Coherent p.workspace) :
    ∃ actions q', (offered p.context d.id span).run.run q = (.ok actions, q') ∧
      ∀ a ∈ actions, ∀ r : Progress, r.source.Coherent p.workspace →
        Ends True (fun result => p.ReadsBack result.change ∧
          ∀ entry ∈ result.change.edits, ∃ doc ∈ p.workspace.documents, doc.id = entry.1 ∧
            ∀ e ∈ entry.2, e.span.Ends fun n => doc.text.Reaches n ∧ ¬ doc.text.SplitsBreak n)
          ((a.perform p.context).run.run r).1 := by
  have hg : Gives p.context d span (offered p.context d.id span) := gives_offered hw hd hs
  obtain ⟨actions, q', hr, hq', ha⟩ := hg.exists_ok ⟨hq, nofun⟩
  refine ⟨actions, q', hr, fun a hm r hc => ?_⟩
  have hm : Meets p.workspace False True (a.perform p.context) _ :=
    meets_perform_located hw hd hs (ha a hm)
  have hl := hm.mono
    (R := fun result => p.ReadsBack result.change ∧
      ∀ entry ∈ result.change.edits, ∃ doc ∈ p.workspace.documents, doc.id = entry.1 ∧
        ∀ e ∈ entry.2, e.span.Ends fun n => doc.text.Reaches n ∧ ¬ doc.text.SplitsBreak n)
    fun result hl => ?_
  · exact (hl r ⟨hc, nofun⟩).2
  · refine ⟨OpenProject.readsBack_of_located hw hl, fun entry he => ?_⟩
    obtain ⟨doc, hdoc, hi, hes⟩ := hl entry he
    refine ⟨doc, hdoc, hi, fun e he => ⟨?_, ?_⟩⟩
    · exact ⟨(hes e he).start.reaches, (Text.addressable_iff.mp (hes e he).start).2⟩
    · exact ⟨(hes e he).stop.reaches, (Text.addressable_iff.mp (hes e he).stop).2⟩

/-- A selection that starts between a carriage return and its line feed, behind a character of four
bytes and two columns. -/
theorem Action.readsBack_offered_selection :
    let text : Text := "codeunit 1 A \x7b\r\nprocedure P()\r\nbegin // 😀\r\n Q('ß');\r\nend;\r\n\x7d"
    let p : OpenProject := ⟨[], Workspace.empty.add "a.al" text, [["a.al"]], .standard, .unknown⟩
    let q : Progress := ⟨.empty, .start .silent⟩
    text.SplitsBreak 45 ∧ text.HasRange ⟨45, 55⟩ ∧
      ∃ actions q', (offered p.context 0 ⟨45, 55⟩).run.run q = (.ok actions, q') ∧
        actions.length = 1 ∧ ∀ a ∈ actions, ∀ r : Progress, r.source.Coherent p.workspace →
          Ends True (fun result => p.ReadsBack result.change ∧
            ∀ entry ∈ result.change.edits, ∃ doc ∈ p.workspace.documents, doc.id = entry.1 ∧
              ∀ e ∈ entry.2, e.span.Ends fun n => doc.text.Reaches n ∧ ¬ doc.text.SplitsBreak n)
            ((a.perform p.context).run.run r).1 := by
  intro text p q
  have hl : ((offered p.context 0 ⟨45, 55⟩).run.run q).1.toOption.map List.length = some 1 := by
    decide +kernel
  have hs : text.HasRange ⟨45, 55⟩ := by decide
  have hb : text.SplitsBreak 45 :=
    ⟨"codeunit 1 A \x7b\r\nprocedure P()\r\nbegin // 😀\r".toList, "\n Q('ß');\r\nend;\r\n\x7d".toList,
      by decide, by decide, "codeunit 1 A \x7b\r\nprocedure P()\r\nbegin // 😀".toList, _, by decide, rfl⟩
  obtain ⟨actions, q', hr, ha⟩ := @readsBack_offered ⟨0, "a.al", 1, text⟩ ⟨45, 55⟩ p q
    (Workspace.numbered_empty.add _ _) (List.mem_singleton_self _) hs (TreeSource.coherent_empty _)
  rw [hr] at hl
  exact ⟨hb, hs, actions, q', hr, Option.some.inj hl, ha⟩

end AlRefactor
