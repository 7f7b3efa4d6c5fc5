import AlRefactor.Proofs.Action.Bounds
import AlRefactor.Proofs.Action.Performing

/-!
# Nothing faults

Whatever is wrong with the documents of a workspace, looking for actions ends with a result, and
carrying one out ends with a change or with a refusal. Every edit of a change has a range of its
document that starts and ends within no line break.
-/

namespace AlRefactor

open SyntaxTree Refactoring

variable {ctx : Context} {d : Document} {text : Text} {span : Span} {n m o : Node} {es : List Edit}

/-! ## Edits -/

theorem Extraction.hasAddress_edits? {s : Selection} {name : Text} (hs : text.HasAddress s.span)
    (hm : m ∈ (parse text).nodes) (hi : m.id ≠ 0) (ho : o ∈ (parse text).nodes)
    (he : edits? ctx (parse text) m o s name = some es) : ∀ e ∈ es, text.HasAddress e.span := by
  obtain ⟨d, hd, rfl⟩ := Option.map_eq_some_iff.mp he
  have hd : d.Beside text := Placement.beside_insert? ho (fun n hn => by
    obtain rfl := Option.mem_some.mp hn
    exact ⟨hm, hi⟩) hd
  intro e he
  rcases List.mem_append.mp he with he | he
  · rcases List.mem_pair.mp he with rfl | rfl
    · exact hs
    · exact hd.hasAddress
  · exact Node.hasAddress_undeclare (fun n hn => nodes_of_removed hm hn) e he

theorem MoveToGlobal.hasAddress_edits? (hn : n ∈ (parse text).nodes) (he : edits? n = some es) :
    ∀ e ∈ es, text.HasAddress e.span := by
  simp only [edits?, Option.bind_eq_bind, Option.bind_eq_some_iff] at he
  obtain ⟨o, ho, he⟩ := he
  split at he
  · cases he
  obtain ⟨f, hf, he⟩ := Option.bind_eq_some_iff.mp he
  cases he
  have hon := (below_of_mem_ancestors hn (List.mem_of_find?_eq_some ho)).1
  intro e he
  rcases List.mem_append.mp he with he | he
  · refine Node.hasAddress_undeclare (fun d hd => ?_) e he
    obtain rfl := List.mem_singleton.mp hd
    exact hn
  · obtain rfl := List.mem_singleton.mp he
    exact (Node.beside_declare? hon hf).hasAddress

theorem Label.hasAddress_edits? (hn : n ∈ (parse text).nodes) (he : edits? ctx n = some es) :
    ∀ e ∈ es, text.HasAddress e.span := by
  simp only [edits?, Option.bind_eq_bind, Option.bind_eq_some_iff] at he
  obtain ⟨m, hm, f, hf, he⟩ := he
  cases he
  have hmn := (below_of_mem_ancestors hn (List.mem_of_find?_eq_some hm)).1
  intro e he
  rcases List.mem_pair.mp he with rfl | rfl
  · exact (Node.beside_declare? hmn hf).hasAddress
  · exact Node.hasAddress_span hn

/-! ## Changes -/

/-- Every edit of the change has a range of its document. -/
def Change.InBounds (w : Workspace) (c : Change) : Prop :=
  ∀ entry ∈ c.edits, ∃ d ∈ w.documents, d.id = entry.1 ∧ ∀ e ∈ entry.2, d.text.HasRange e.span

/-- Every edit of the change has a range of its document that starts and ends within no line break. -/
def Change.Located (w : Workspace) (c : Change) : Prop :=
  ∀ entry ∈ c.edits, ∃ d ∈ w.documents, d.id = entry.1 ∧ ∀ e ∈ entry.2, d.text.HasAddress e.span

theorem Change.Located.inBounds {w : Workspace} {c : Change} (h : c.Located w) : c.InBounds w := by
  intro entry he
  obtain ⟨d, hd, hi, hr⟩ := h entry he
  exact ⟨d, hd, hi, fun e he => (hr e he).hasRange⟩

theorem Change.located_ofEdits {w : Workspace} (hd : d ∈ w.documents)
    (h : ∀ e ∈ es, d.text.HasAddress e.span) : (ofEdits d.id es).Located w := by
  intro entry he
  rw [ofEdits, add] at he
  split at he
  · cases he
  · obtain rfl := List.mem_singleton.mp he
    exact ⟨d, hd, rfl, h⟩

/-! ## Commands -/

section Commands

variable {silent : Prop} {w : Workspace} {c : Command}

theorem Command.meets_found_or_refuses {α : Type} (x : Option α) :
    Meets w silent True (c.found x) fun a => x = some a := by
  cases x with
  | none => exact meets_refuse trivial _
  | some a => exact meets_pure rfl

theorem Command.meets_edited_located (hd : d ∈ w.documents) (hc : c.document = d.id)
    (h : ∀ e ∈ es, d.text.HasAddress e.span) :
    Meets w silent True (c.edited es) (·.change.Located w) := by
  refine (meets_found_or_refuses _).mono fun r hr => ?_
  split at hr
  · cases hr
  · cases hr
    exact hc ▸ Change.located_ofEdits hd h

variable (hw : ctx.workspace.Numbered) (hd : d ∈ ctx.workspace.documents)

include hw hd

theorem Publisher.meets_add_located {side : Side} (hn : n ∈ (parse d.text).nodes)
    (hk : n.kind.isMethod) :
    Meets ctx.workspace silent True (add ctx d.id n side) (·.Located ctx.workspace) := by
  rw [add]
  split
  · rename_i o b name ho hb _
    have hon := (below_of_mem_ancestors hn (List.mem_of_find?_eq_some ho)).1
    have hbn := mem_nodes_of_child hn (Node.mem_of_child? hb).1
    refine (EventPlan.meets_make hw hk (.inl trivial)).bind fun plan _ => ?_
    split
    · rename_i es he
      have hes := beside_edits? hn (Node.id_ne_zero_of_isMethod hn hk) hon hbn he
      exact meets_pure (Change.located_ofEdits hd fun e he => (hes e he).hasAddress)
    · exact meets_refuse trivial _
  · exact meets_refuse trivial _

omit hw in
theorem Extraction.meets_extract? (hs : d.text.HasRange span) :
    Meets ctx.workspace silent True (extract? ctx d.id (parse d.text) span) fun r =>
      ∀ a ∈ r, a.change.Located ctx.workspace := by
  obtain ⟨r, hr⟩ := Selection.exists_at? hs
  refine (meets_ofFault hr (Q := (· = r)) rfl).bind fun r' hr' => ?_
  subst hr'
  cases r' with
  | none => exact meets_pure nofun
  | some s =>
      obtain ⟨u, hu⟩ := Selection.exists_touched hr
      have hb := Selection.hasAddress hu
      dsimp only
      split
      · rename_i m o hm ho
        rw [hm, Option.bind_some] at ho
        obtain ⟨hmn, hmk⟩ := Selection.mem_method hu hm
        have hon := (below_of_mem_ancestors hmn (List.mem_of_find?_eq_some ho)).1
        split
        · exact meets_pure nofun
        · refine meets_get.bind fun p _ => (meets_chosenName (.inr trivial)).bind fun name _ => ?_
          refine meets_pure fun a ha => ?_
          obtain ⟨es, he, rfl⟩ := Option.map_eq_some_iff.mp ha
          have hi := Node.id_ne_zero_of_isMethod hmn hmk
          exact Change.located_ofEdits hd (hasAddress_edits? hb hmn hi hon he)
      · exact meets_pure nofun

/-- Every command for a document can be tried, wherever it looks for a procedure. Only the range of an
extraction has to be one of the text. -/
theorem Command.meets_execute_located (hc : c.document = d.id)
    (hs : ∀ stop, c.kind = .extractProcedure stop → c.offset ≤ stop →
      d.text.HasRange ⟨c.offset, stop⟩) :
    Meets ctx.workspace silent True (c.execute ctx) (·.change.Located ctx.workspace) := by
  rw [execute, hc]
  refine (Context.meets_tree hw hd).bind fun t ht => ?_
  subst ht
  split
  · refine (meets_found_or_refuses _).bind fun n hn => ?_
    obtain ⟨hnn, hnk⟩ := of_findAt? hn
    rw [Node.isAny_methods] at hnk
    exact (Publisher.meets_add_located hw hd hnn hnk).bind fun _ hc => meets_pure hc
  · refine (meets_found_or_refuses _).bind fun n hn => ?_
    refine meets_edited_located hd hc fun e he => ?_
    exact (Node.beside_extendParameters? (of_findAt? hn).1 (Option.mem_toList.mp he)).hasAddress
  · refine (meets_found_or_refuses _).bind fun n hn => ?_
    obtain ⟨hnn, hnk⟩ := of_findAt? hn
    have hnk : n.kind = NodeKind.methodDeclaration := by simpa [Node.isAny] using hnk
    have hi := Node.id_ne_zero_of_isMethod hnn (by rw [hnk]; rfl)
    refine meets_edited_located hd hc fun e he => ?_
    exact (Node.beside_addOverload hnn hi e he).hasAddress
  · rename_i stop hk
    split
    · refine (meets_found_or_refuses _).mono fun _ h => ?_
      cases h
    · refine (Extraction.meets_extract? hd (hs _ hk (Nat.le_of_not_lt ‹_›))).bind fun r hr => ?_
      exact (meets_found_or_refuses _).mono fun a ha => hr a ha

end Commands

/-! ## Actions -/

section Actions

variable {silent : Prop} (hw : ctx.workspace.Numbered) (hd : d ∈ ctx.workspace.documents)

include hw hd

/-- What is offered for a range is carried out or refused, whoever is there to be asked. -/
theorem Action.meets_perform_located {a : Action} (hs : d.text.HasRange span)
    (ho : Offers ctx d span a.effect) :
    Meets ctx.workspace silent True (a.perform ctx) (·.change.Located ctx.workspace) := by
  obtain ⟨_, _, effect⟩ := a
  rw [perform]
  cases ho with
  | @extend call target m kind hcall hf hk =>
      obtain ⟨found, hf', hspec⟩ := CallFix.target?_spec hd (of_findAt? hcall).1
      obtain rfl := Except.ok.inj (hf.symm.trans hf')
      obtain ⟨doc, hdoc, hi, _⟩ := hspec _ rfl
      refine Command.meets_execute_located hw hdoc hi.symm fun stop he => ?_
      rcases hk with rfl | ⟨_, rfl⟩ <;> cases he
  | publish =>
      refine Command.meets_execute_located hw hd rfl fun _ h => ?_
      cases h
  | move hn he =>
      exact meets_pure (Change.located_ofEdits hd
        (MoveToGlobal.hasAddress_edits? (MoveToGlobal.of_declarationAt? hn).1 he))
  | label hn he =>
      exact meets_pure (Change.located_ofEdits hd
        (Label.hasAddress_edits? (Label.of_literalAt? hn).1 he))
  | @validate a ha =>
      refine meets_pure (Change.located_ofEdits hd fun e he => ?_)
      obtain rfl := List.mem_singleton.mp he
      exact Node.hasAddress_span (FieldAssignment.of_at? ha).1
  | extract =>
      refine Command.meets_execute_located hw hd rfl fun stop he _ => ?_
      cases he
      exact hs

theorem Action.meets_perform_inBounds {a : Action} (hs : d.text.HasRange span)
    (ho : Offers ctx d span a.effect) :
    Meets ctx.workspace silent True (a.perform ctx) (·.change.InBounds ctx.workspace) :=
  (meets_perform_located hw hd hs ho).mono fun _ h => h.inBounds

end Actions

/-- Nothing faults, whatever is wrong with the documents of a workspace. Everything that is cut out of a
text or looked up in a tree is there. Looking for actions at a range of a document succeeds, and each
action that is performed, whoever is there to be asked, is refused or gives a change all edits of which
have ranges of their documents. -/
theorem Action.inBounds_offered {p : Progress} (hw : ctx.workspace.Numbered)
    (hsize : ∀ doc ∈ ctx.workspace.documents, doc.text.size < 2 ^ 32)
    (hd : d ∈ ctx.workspace.documents) (hs : d.text.HasRange span)
    (hp : p.source.Coherent ctx.workspace) :
    (∀ t : Text, t.InBounds) ∧ (∀ doc ∈ ctx.workspace.documents, (parse doc.text).InBounds) ∧
      ∃ actions q, (offered ctx d.id span).run.run p = (.ok actions, q) ∧
        q.source.Coherent ctx.workspace ∧
        ∀ a ∈ actions, ∀ p' : Progress, p'.source.Coherent ctx.workspace →
          Ends True (·.change.InBounds ctx.workspace) ((a.perform ctx).run.run p').1 := by
  obtain ⟨actions, q, hr, hq, ha⟩ := (gives_offered hw hd hs).exists_ok ⟨hp, nofun⟩
  refine ⟨Text.inBounds, fun doc hdoc => inBounds_parse (hsize doc hdoc), actions, q, hr,
    hq.coherent, fun a hm p' hp' => ?_⟩
  exact (@meets_perform_inBounds ctx d span False hw hd a hs (ha a hm) p' ⟨hp', nofun⟩).2

/-- A file that ends inside of a call, and in it a selection with a letter of two bytes. -/
theorem Action.inBounds_offered_unclosed :
    let text : Text := "codeunit 1 A \x7b procedure P() begin Q('ß')"
    let w : Workspace := Workspace.empty.add "a.al" text
    let ctx : Context := ⟨w, .standard, .unknown⟩
    let p : Progress := ⟨.empty, .start .silent⟩
    (parse text).ok = false ∧ (∀ t : Text, t.InBounds) ∧
      (∀ doc ∈ w.documents, (parse doc.text).InBounds) ∧
      ∃ actions q, (offered ctx 0 ⟨35, 42⟩).run.run p = (.ok actions, q) ∧ actions.length = 3 ∧
        q.source.Coherent w ∧ ∀ a ∈ actions, ∀ p' : Progress, p'.source.Coherent w →
          Ends True (·.change.InBounds w) ((a.perform ctx).run.run p').1 := by
  intro text w ctx p
  have hl : ((offered ctx 0 ⟨35, 42⟩).run.run p).1.toOption.map List.length = some 3 := by
    decide +kernel
  have hsize : ∀ doc ∈ w.documents, doc.text.size < 2 ^ 32 := by decide
  obtain ⟨ht, hn, actions, q, hr, hq, ha⟩ := @inBounds_offered ctx ⟨0, "a.al", 1, text⟩ ⟨35, 42⟩ p
    (Workspace.numbered_empty.add _ _) hsize (List.mem_singleton_self _) (by decide)
    (TreeSource.coherent_empty w)
  rw [hr] at hl
  exact ⟨by decide +kernel, ht, hn, actions, q, hr, Option.some.inj hl, hq, ha⟩

end AlRefactor
