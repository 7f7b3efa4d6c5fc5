import AlRefactor.Proofs.Action.Changes
import AlRefactor.Proofs.Action.Offers
import AlRefactor.Proofs.Action.Publisher
import AlRefactor.Proofs.Edit.Overload

/-!
# What is offered can be carried out

An action is offered for something that was found, and its command finds it again: a procedure at its
name, statements in their range. Where nothing is wrong with a text, the object around a procedure has
a place for what is added, and the edits fit the text.
-/

namespace AlRefactor

open SyntaxTree Refactoring

variable {ctx : Context} {d : Document} {text : Text} {span : Span} {n m o : Node}

/-! ## Questions on the way -/

section Questions

variable {silent refusal : Prop}

namespace EventPlan

variable {side : Side}

theorem meets_returnVariable? {w : Workspace} (ha : refusal ∨ silent) :
    Meets w silent refusal (returnVariable? n) fun _ => True := by
  rw [returnVariable?]
  split
  · exact meets_pure trivial
  · split
    · exact meets_pure trivial
    · have hs : ∀ e : Dialogue, e.isSilent → e.askForReturnName (TakenNames.ofMethod n) =
          (some (Text.fresh Text.sameName (TakenNames.ofMethod n).all
            Dialogue.standardReturnName), e) := fun e he => if_pos he
      refine (meets_talk (fun e he => by rw [hs e he]) ?_).bind fun _ _ => meets_pure trivial
      exact ha.imp_right fun hsilent => ⟨hsilent, fun e he => by rw [hs e he]; rfl⟩

variable (hw : ctx.workspace.Numbered)

include hw

theorem meets_finalResult? :
    Meets ctx.workspace silent refusal (finalResult? ctx n) fun _ => True := by
  rw [finalResult?]
  split
  · exact meets_pure trivial
  · split
    · exact (Context.meets_trees hw).bind fun _ _ => meets_pure trivial
    · exact (Context.meets_trees hw).bind fun _ _ => meets_pure trivial
    · exact meets_pure trivial

theorem meets_sideCandidates (ha : refusal ∨ silent) :
    Meets ctx.workspace silent refusal (sideCandidates ctx side n) fun _ => True := by
  cases side with
  | before => exact (meets_returnVariable? ha).bind fun _ _ => meets_pure trivial
  | after =>
      refine (meets_finalResult? hw).bind fun _ _ => ?_
      dsimp only
      split
      · exact (meets_returnVariable? ha).bind fun _ _ => meets_pure trivial
      · exact meets_pure trivial

theorem meets_recordCandidates :
    Meets ctx.workspace silent refusal (recordCandidates ctx n) fun _ => True := by
  rw [recordCandidates]
  split
  · exact meets_pure trivial
  · refine (Context.meets_trees hw).bind fun _ _ => ?_
    split
    · exact meets_pure trivial
    · exact meets_pure trivial

omit hw in
theorem meets_choose {w : Workspace} {offered : List Candidate} (ha : refusal ∨ silent) :
    Meets w silent refusal (choose offered) fun _ => True := by
  refine meets_get.bind fun p hp => ?_
  dsimp only
  split
  · exact meets_pure trivial
  · rename_i hs
    have hr := ha.resolve_right fun hsilent => hs (hp.silent hsilent)
    have hq : Progress.Ready w silent
        { p with dialogue := (p.dialogue.pick (offered.map (·.item))).2 } :=
      ⟨hp.coherent, fun hsilent => absurd (hp.silent hsilent) hs⟩
    refine (meets_set hq).bind fun _ _ => ?_
    split
    · exact meets_pure trivial
    · exact meets_refuse hr _

/-- A plan is made for every procedure and trigger unless the user cancels. -/
theorem meets_make (hk : n.kind.isMethod) (ha : refusal ∨ silent) :
    Meets ctx.workspace silent refusal (make ctx side n) fun _ => True := by
  rw [make]
  dsimp only
  rw [hk, Bool.not_true, if_neg Bool.false_ne_true]
  exact (meets_sideCandidates hw ha).bind fun _ _ => (meets_recordCandidates hw).bind fun _ _ =>
    (meets_choose ha).bind fun _ _ => meets_pure trivial

end EventPlan

/-- A name for a new procedure is found unless the user cancels. -/
theorem Extraction.meets_chosenName {w : Workspace} {asks : Bool} (ha : asks = false ∨ refusal) :
    Meets w silent refusal (chosenName asks m o) fun _ => True := by
  cases asks with
  | false => exact meets_pure trivial
  | true =>
      rw [chosenName, if_pos rfl]
      refine meets_talk (fun e he => ?_) (.inl (ha.resolve_left nofun))
      obtain ⟨⟨⟩ | _, _⟩ := e
      · rfl
      · cases he

end Questions

/-! ## Changes of a workspace -/

namespace Change

variable {w : Workspace} {es : List Edit} {t : Text}

/-- The change is not empty, and it changes documents of a workspace by edits that fit their texts. -/
structure Applies (w : Workspace) (c : Change) : Prop where
  nonempty : c.isEmpty = false
  fits : ∀ entry ∈ c.edits, ∃ d ∈ w.documents, d.id = entry.1 ∧ ∃ t, Edit.apply entry.2 d.text = .ok t

theorem applies_ofEdits (hd : d ∈ w.documents) (hne : es ≠ []) (ha : Edit.apply es d.text = .ok t) :
    (ofEdits d.id es).Applies w := by
  have hc : ofEdits d.id es = ⟨[(d.id, es)]⟩ := by
    rw [ofEdits, add, if_neg (by simpa using hne)]
    rfl
  rw [hc]
  refine ⟨?_, fun entry he => ?_⟩
  · simpa [isEmpty, count] using hne
  · obtain rfl := List.mem_singleton.mp he
    exact ⟨d, hd, rfl, t, ha⟩

end Change

namespace Command

/-- What a command is offered for is what it finds: a call's procedure, or the procedure or trigger
with its header at a range. -/
def Resolves (ctx : Context) (d : Document) (span : Span) (c : Command) : Prop :=
  match c.kind with
  | .addPublisher _ => c.document = d.id ∧ ∃ n, Publisher.headerAt? (parse d.text) span = some n ∧
      (parse d.text).methodAround? c.offset = some n
  | .addParameters | .addOverload _ => ∃ call m, CallFix.callAt? (parse d.text) span = some call ∧
      CallFix.target? ctx ctx.workspace.trees d.id call = .ok (some (c.document, m)) ∧
      ∃ doc ∈ ctx.workspace.documents, doc.id = c.document ∧
        (parse doc.text).procedureAround? c.offset = some m.method
  | .extractProcedure _ => True

section Parts

variable {silent refusal : Prop} {c : Command} {w : Workspace}

theorem meets_found {α : Type} {x : Option α} {a : α} (hx : x = some a) :
    Meets w silent refusal (c.found x) (· = a) := by
  subst hx
  exact meets_pure rfl

theorem meets_edited {es : List Edit} (hne : es ≠ []) :
    Meets w silent refusal (c.edited es) (·.change = .ofEdits c.document es) := by
  rw [edited, if_neg (by simpa using hne)]
  exact meets_pure rfl

end Parts

end Command

section Commands

variable {silent refusal : Prop} (hw : ctx.workspace.Numbered) (hd : d ∈ ctx.workspace.documents)
  (h : (parse d.text).ok) (hn : n ∈ (parse d.text).nodes)

include hw hd h hn

/-! ## Parameters -/

theorem Command.meets_execute_addParameters (hk : n.kind = NodeKind.methodDeclaration)
    {missing : List Variable} (hm : missing ≠ []) :
    Meets ctx.workspace silent refusal (execute ⟨.addParameters, d.id, n.commandOffset, missing⟩ ctx) fun r =>
      ∃ e, n.extendParameters? missing = some e ∧ r.change = .ofEdits d.id [e] := by
  have hf := procedureAround?_commandOffset h hn hk
  refine (Context.meets_tree hw hd).bind fun t ht => ?_
  subst ht
  refine (meets_found hf).bind fun a ha => ?_
  subst ha
  obtain ⟨e, he, _⟩ := Node.exists_extends h hn (by rw [hk]; rfl) hm
  rw [he]
  exact (meets_edited (List.cons_ne_nil _ _)).mono fun r hr => ⟨e, rfl, hr⟩

theorem Command.meets_execute_addOverload (hk : n.kind = NodeKind.methodDeclaration)
    {missing : List Variable} (hm : missing ≠ []) (obsolete : Bool) :
    Meets ctx.workspace silent refusal (execute ⟨.addOverload obsolete, d.id, n.commandOffset, missing⟩ ctx)
      (·.change = .ofEdits d.id (n.addOverload missing obsolete ctx.project.version)) := by
  have hf := procedureAround?_commandOffset h hn hk
  refine (Context.meets_tree hw hd).bind fun t ht => ?_
  subst ht
  refine (meets_found hf).bind fun a ha => ?_
  subst ha
  obtain ⟨_, _, _, _, _, ha, _⟩ := @Node.apply_addOverload _ _ _ obsolete ctx.project.version h hn hk hm
  exact meets_edited (by rw [ha]; simp)

theorem Command.meets_execute_extend (hk : n.kind = NodeKind.methodDeclaration)
    {missing : List Variable} (hm : missing ≠ []) {kind : Operation}
    (ho : kind = .addParameters ∨ ∃ obsolete, kind = .addOverload obsolete) :
    Meets ctx.workspace silent refusal
      (execute ⟨kind, d.id, n.commandOffset, missing⟩ ctx) (·.change.Applies ctx.workspace) := by
  rcases ho with rfl | ⟨obsolete, rfl⟩
  · refine (meets_execute_addParameters hw hd h hn hk hm).mono fun r hr => ?_
    obtain ⟨e, he, hr⟩ := hr
    rw [hr]
    refine Change.applies_ofEdits hd (List.cons_ne_nil _ _) (Edit.apply_adds fun f hf => ?_)
    rw [List.mem_singleton.mp hf]
    exact (Node.beside_extendParameters? hn he).adds h
  · refine (meets_execute_addOverload hw hd h hn hk hm obsolete).mono fun r hr => ?_
    obtain ⟨_, _, _, _, _, ha, _, _, _, _, _, hap, _⟩ :=
      @Node.apply_addOverload _ _ _ obsolete ctx.project.version h hn hk hm
    rw [hr]
    exact Change.applies_ofEdits hd (by rw [ha]; simp) hap

/-! ## Events -/

omit hw hd in
/-- In the body of a procedure in an object there is always a place to raise an event, and in the
object one for the event. -/
theorem Publisher.exists_edits? {side : Side} {b r : Node} {name : Text} {plan : EventPlan}
    (hb : n.child? NodeKind.block = some b) (ho : o.kind.isObject)
    (hr : o.lastChild? TokenKind.rBrace = some r) :
    ∃ es, edits? ctx side o b n name plan = some es := by
  obtain ⟨hbn, hbk⟩ := Node.mem_of_child? hb
  have hbn := mem_nodes_of_child hn hbn
  have hcall : ∀ (t : Text) (arguments : List Text) (handled : Bool) (place : BodyEnd),
      ∃ call, b.raiseEvent? t arguments handled place = some call := by
    intro t arguments handled place
    rw [Node.raiseEvent?, if_pos (by rw [Node.is, hbk, beq_self_eq_true])]
    cases place with
    | top =>
        obtain ⟨k, hk⟩ := exists_child? h hbn hbk (j := TokenKind.kwBegin) rfl
        exact ⟨_, by rw [Node.insertStatements?, hk]; rfl⟩
    | bottom =>
        obtain ⟨k, hk⟩ := exists_child? h hbn hbk (j := TokenKind.kwEnd) rfl
        obtain ⟨hk, hkk⟩ := Node.mem_of_child? hk
        obtain ⟨e, he⟩ := Node.exists_lastChild? hk hkk
        have hp : ∃ place, b.bottomPlace? = some place := by
          rw [Node.bottomPlace?, he]
          split
          · exact ⟨_, rfl⟩
          · exact ⟨_, rfl⟩
        obtain ⟨place, hp⟩ := hp
        exact ⟨_, by rw [Node.insertStatements?, hp]; rfl⟩
  unfold edits?
  dsimp only
  generalize Text.fresh _ _ _ = new
  obtain ⟨call, hcall⟩ := hcall new (plan.parameters.map (·.argument)) _ _
  obtain ⟨event, hevent⟩ := Placement.exists_insert? ho hr
  exact ⟨_, Option.bind_eq_some_iff.mpr ⟨call, hcall, Option.bind_eq_some_iff.mpr ⟨event, hevent, rfl⟩⟩⟩

theorem Publisher.meets_add {side : Side} {b : Node} (hk : n.kind.isMethod)
    (hb : n.child? NodeKind.block = some b) (ha : refusal ∨ silent) :
    Meets ctx.workspace silent refusal (add ctx d.id n side) (·.Applies ctx.workspace) := by
  obtain ⟨o, r, ho, hok, hr⟩ := exists_object h hn (by rw [Kind.isMember, hk, Bool.true_or])
  obtain ⟨name, hname⟩ := exists_name h hn hk
  rw [add, ho, hb, hname]
  refine (EventPlan.meets_make hw hk ha).bind fun plan _ => ?_
  obtain ⟨es, he⟩ := @exists_edits? ctx d n o h hn side b r name plan hb hok hr
  have hes := raises_edits? h hn hk ho hb he
  rw [he]
  refine meets_pure (Change.applies_ofEdits hd (fun hnil => ?_) (Edit.apply_adds hes.adds))
  obtain ⟨_, _, _, hsuf, _⟩ := hes.raised
  rw [hnil] at hsuf
  cases List.suffix_nil.mp hsuf

theorem Command.meets_execute_publish {side : Side} {b : Node} (hk : n.kind.isMethod)
    (hb : n.child? NodeKind.block = some b) (ha : refusal ∨ silent) :
    Meets ctx.workspace silent refusal
      (execute ⟨.addPublisher side, d.id, n.commandOffset, []⟩ ctx)
      (·.change.Applies ctx.workspace) := by
  refine (Context.meets_tree hw hd).bind fun t ht => ?_
  subst ht
  refine (meets_found (methodAround?_commandOffset h hn hk)).bind fun a ha' => ?_
  subst ha'
  exact (Publisher.meets_add hw hd h hn hk hb ha).bind fun _ hc => meets_pure hc

/-! ## Statements that become a procedure -/

omit hw hd h hn in
theorem Extraction.exists_method {s : Selection}
    (hs : Selection.at? (parse text) span = .ok (some s)) :
    ∃ m, s.statements.head?.bind (·.method?) = some m := by
  obtain ⟨u, hu⟩ := Selection.exists_touched hs
  obtain ⟨_, b, f, l, ⟨m, hm⟩, ht⟩ := Selection.of_touched? hu
  obtain ⟨hf, hfk, _⟩ := ht.mem_statements (List.mem_of_head? ht.first.1)
  refine ⟨m, ?_⟩
  rw [ht.first.1, Option.bind_some, Node.method?, ancestors_of_mem_children ht.block.1 hf,
    List.find?_cons, (Kind.of_isStatement hfk).2.1]
  exact hm

omit hw hd h hn in
theorem Extraction.exists_edits? {t : SyntaxTree} {b : Node} {s : Selection} {name : Text}
    (ho : o.kind.isObject) (hb : o.lastChild? TokenKind.rBrace = some b) :
    ∃ es, edits? ctx t m o s name = some es := by
  unfold edits?
  dsimp only
  obtain ⟨e, he⟩ := Placement.exists_insert? ho hb
  exact ⟨_, Option.map_eq_some_iff.mpr ⟨e, he, rfl⟩⟩

omit hn in
theorem Command.meets_execute_extract {s : Selection} (hsp : d.text.HasRange span)
    (hs : Selection.at? (parse d.text) span = .ok (some s)) (hx : s.mayExit = false)
    (hc : ctx.config.findNewProcedureLocation = .afterCurrent) :
    Meets ctx.workspace silent refusal
      (execute ⟨.extractProcedure span.stop, d.id, span.start, []⟩ ctx)
      (·.change.Applies ctx.workspace) := by
  obtain ⟨m, hm⟩ := Extraction.exists_method hs
  obtain ⟨hmn, hmk, _⟩ := Extraction.inside_method h hs hm
  obtain ⟨o, b, ho, hok, hb⟩ := exists_object h hmn (by rw [Kind.isMember, hmk, Bool.true_or])
  have hle := (Text.hasRange_iff.mp hsp).1
  refine (Context.meets_tree hw hd).bind fun t ht => ?_
  subst ht
  dsimp only
  rw [if_neg (Nat.not_lt.mpr hle)]
  have hr : Meets ctx.workspace silent refusal
      (Extraction.extract? ctx d.id (parse d.text) span) fun r =>
        ∃ a, r = some a ∧ a.change.Applies ctx.workspace := by
    refine (meets_ofFault hs (Q := (· = some s)) rfl).bind fun r hr => ?_
    subst hr
    dsimp only
    rw [hm, Option.bind_some, ho, hc]
    dsimp only
    rw [hx, if_neg Bool.false_ne_true]
    refine meets_get.bind fun _ _ => (Extraction.meets_chosenName (.inl rfl)).bind fun name _ => ?_
    obtain ⟨es, he⟩ := @Extraction.exists_edits? ctx m o (parse d.text) b s name hok hb
    obtain ⟨hes, hap⟩ := Extraction.edits?_apart h hc hs hm ho he
    obtain ⟨_, _, hes'⟩ := Option.map_eq_some_iff.mp he
    rw [he]
    exact meets_pure ⟨_, rfl,
      Change.applies_ofEdits hd (by rw [← hes']; simp) (Edit.apply_seams hes hap)⟩
  refine hr.bind fun r ⟨a, hra, ha⟩ => ?_
  exact (meets_found hra).mono fun b hb => hb ▸ ha

end Commands

/-! ## Every action -/

section Actions

variable (hw : ctx.workspace.Numbered)
  (hok : ∀ d ∈ ctx.workspace.documents, (parse d.text).ok) (hd : d ∈ ctx.workspace.documents)

include hok hd

theorem Command.resolves_offered {c : Command} (ho : Offers ctx d span (.command c)) :
    c.Resolves ctx d span := by
  cases ho with
  | @extend call target m kind hc hf hk =>
      obtain ⟨found, hf', hspec⟩ := CallFix.target?_spec hd (of_findAt? hc).1
      obtain rfl : some (target, m) = found := Except.ok.inj (hf.symm.trans hf')
      obtain ⟨doc, hdoc, hi, hmn, hmk, _⟩ := hspec _ rfl
      have hr := procedureAround?_commandOffset (hok doc hdoc) hmn hmk
      rcases hk with rfl | ⟨_, rfl⟩
      · exact ⟨call, m, hc, hf, doc, hdoc, hi, hr⟩
      · exact ⟨call, m, hc, hf, doc, hdoc, hi, hr⟩
  | @publish n side hn =>
      obtain ⟨hnn, hnk, _⟩ := Publisher.of_headerAt? hn
      exact ⟨rfl, n, hn, methodAround?_commandOffset (hok d hd) hnn hnk⟩
  | extract => trivial

include hw

/-- What is offered for a range is carried out without a question. -/
theorem Action.meets_perform {a : Action} (hc : ctx.config.findNewProcedureLocation = .afterCurrent)
    (hs : d.text.HasRange span) (ho : Offers ctx d span a.effect) :
    Meets ctx.workspace True False (a.perform ctx) (·.change.Applies ctx.workspace) := by
  have h := hok d hd
  obtain ⟨_, _, effect⟩ := a
  rw [perform]
  cases ho with
  | extend hcall hf hk =>
      obtain ⟨found, hf', hspec⟩ := CallFix.target?_spec hd (of_findAt? hcall).1
      obtain rfl := Except.ok.inj (hf.symm.trans hf')
      obtain ⟨doc, hdoc, rfl, hmn, hmk, hm⟩ := hspec _ rfl
      exact Command.meets_execute_extend hw hdoc (hok doc hdoc) hmn hmk hm hk
  | publish hn =>
      obtain ⟨hnn, hnk, b, hb⟩ := Publisher.of_headerAt? hn
      exact Command.meets_execute_publish hw hd h hnn hnk hb (.inr trivial)
  | move hn he =>
      obtain ⟨m, v, hl⟩ := MoveToGlobal.exists_isLocal h hn
      obtain ⟨hne, ha⟩ := MoveToGlobal.apply_edits? h hl he
      exact meets_pure (Change.applies_ofEdits hd hne ha)
  | label hn he =>
      obtain ⟨hnn, hnk⟩ := Label.of_literalAt? hn
      obtain ⟨hne, ha⟩ := Label.apply_edits? h hnn hnk he
      exact meets_pure (Change.applies_ofEdits hd hne ha)
  | @validate a ha =>
      obtain ⟨han, hak⟩ := FieldAssignment.of_at? ha
      have hi : a.statement.id ≠ 0 := fun hi => by cases hak.symm.trans (kind_root han hi)
      exact meets_pure (Change.applies_ofEdits hd (by simp) (FieldAssignment.apply_edits h han hi _))
  | extract hsel hx => exact Command.meets_execute_extract hw hd h hs hsel hx hc

end Actions

/-- Every offered action can be carried out. Where nothing is wrong with the documents of a workspace
and new procedures go behind the current one, looking for actions at a range succeeds. Each command
among them finds what it was offered for, and each action that is performed on the same documents
without asking anybody gives a change that is not empty and fits the texts. -/
theorem Action.perform_offered {p : Progress} (hw : ctx.workspace.Numbered)
    (hok : ∀ d ∈ ctx.workspace.documents, (parse d.text).ok)
    (hc : ctx.config.findNewProcedureLocation = .afterCurrent) (hd : d ∈ ctx.workspace.documents)
    (hs : d.text.HasRange span) (hp : p.source.Coherent ctx.workspace) :
    ∃ actions q, (offered ctx d.id span).run.run p = (.ok actions, q) ∧
      q.source.Coherent ctx.workspace ∧ ∀ a ∈ actions,
        (∀ c, a.effect = .command c → c.Resolves ctx d span) ∧
        ∀ p' : Progress, p'.source.Coherent ctx.workspace → p'.dialogue.isSilent →
          ∃ r q', (a.perform ctx).run.run p' = (.ok r, q') ∧ r.change.Applies ctx.workspace := by
  obtain ⟨actions, q, hr, hq, ha⟩ := (gives_offered hw hd hs).exists_ok ⟨hp, nofun⟩
  refine ⟨actions, q, hr, hq.coherent, fun a hmem => ⟨fun c hac => ?_, fun p' hp' hsilent => ?_⟩⟩
  · exact Command.resolves_offered hok hd (hac ▸ ha a hmem)
  · obtain ⟨r, q', hr, _, happ⟩ :=
      (meets_perform hw hok hd hc hs (ha a hmem)).exists_ok ⟨hp', fun _ => hsilent⟩
    exact ⟨r, q', hr, happ⟩

/-- At a call that lacks a parameter a new one or an overload, events for the procedure on the same line
and an extraction are offered. -/
theorem Action.perform_offered_call :
    let text : Text := "codeunit 1 A \x7b procedure P() begin Q(1); end; procedure Q() begin end; \x7d"
    let w : Workspace := Workspace.empty.add "a.al" text
    let ctx : Context := ⟨w, .standard, .unknown⟩
    let p : Progress := ⟨.empty, .start .silent⟩
    ∃ actions q, (offered ctx 0 ⟨35, 40⟩).run.run p = (.ok actions, q) ∧ actions.length = 6 ∧
      q.source.Coherent w ∧ ∀ a ∈ actions,
        (∀ c, a.effect = .command c → c.Resolves ctx ⟨0, "a.al", 1, text⟩ ⟨35, 40⟩) ∧
        ∀ p' : Progress, p'.source.Coherent w → p'.dialogue.isSilent →
          ∃ r q', (a.perform ctx).run.run p' = (.ok r, q') ∧ r.change.Applies w := by
  intro text w ctx p
  have hok : (parse text).ok := by decide +kernel
  have hl : ((offered ctx 0 ⟨35, 40⟩).run.run p).1.toOption.map List.length = some 6 := by
    decide +kernel
  obtain ⟨actions, q, hr, hq, ha⟩ := @perform_offered ctx ⟨0, "a.al", 1, text⟩ ⟨35, 40⟩ p
    (Workspace.numbered_empty.add _ _)
    (fun d hd => by obtain rfl := List.mem_singleton.mp hd; exact hok) rfl
    (List.mem_singleton_self _) (by decide) (TreeSource.coherent_empty w)
  rw [hr] at hl
  exact ⟨actions, q, hr, Option.some.inj hl, hq, ha⟩

end AlRefactor
