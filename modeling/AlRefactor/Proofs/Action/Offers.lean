import AlRefactor.Action.Menu
import AlRefactor.Proofs.Action.Extraction
import AlRefactor.Proofs.Session.Refactoring
import AlRefactor.Proofs.Syntax.Offsets

/-!
# What is offered

Every action that is offered stands for something that was found at a range: a call that lacks
parameters, the header of a procedure, a local, a literal, an assignment to a field or a selection of
statements. Looking for these ends with a result in every text.
-/

namespace AlRefactor

open SyntaxTree Refactoring

variable {ctx : Context} {d : Document} {text : Text} {span : Span} {n o : Node} {name : Text}

/-! ## What is found -/

/-- A selection is looked for in a part of the text. -/
theorem Selection.exists_at? (hs : text.HasRange span) :
    ∃ s, Selection.at? (parse text) span = .ok s := by
  rw [Selection.at?]
  split
  · exact ⟨none, rfl⟩
  · rename_i u s hu
    obtain ⟨hu, b, f, l, _, ht⟩ := of_touched? hu
    have hl := mem_nodes_of_child ht.block.1 (ht.mem_statements (List.mem_of_getLast? ht.last.1)).1
    have hr : text.HasRange ⟨u.stop, s.span.stop⟩ := by
      rw [ht.span]
      exact Text.hasRange_iff.mpr ⟨ht.last.2,
        (Text.hasRange_iff.mp (Text.hasRange_trimSpan? hs hu).1).2.2, (seams hl).1.2.boundary⟩
    obtain ⟨rest, hr⟩ : ∃ rest, (parse text).text.slice? ⟨u.stop, s.span.stop⟩ = some rest :=
      Option.isSome_iff_exists.mp hr
    rw [hr]
    exact ⟨_, rfl⟩

namespace CallTarget

variable {exactOnly : Bool} {methods : List Node} {arguments : List Argument} {m : Node}

theorem best?_mem {es : List (Node × Score)} {e : Node × Score} (h : best? es = some e) : e ∈ es := by
  induction es with
  | nil => cases h
  | cons e' es ih =>
      rw [best?] at h
      split at h
      · cases h
        exact List.mem_cons_self
      · split at h
        · cases h
          exact .tail _ (ih ‹_›)
        · cases h
          exact List.mem_cons_self

/-- A candidate is one of the procedures and has fewer parameters than there are arguments. -/
theorem of_candidates {s : Score} (h : (m, s) ∈ candidates exactOnly methods arguments) :
    m ∈ methods ∧ m.parameters.length < arguments.length := by
  obtain ⟨a, ha, h⟩ := List.mem_filterMap.mp h
  dsimp only at h
  split at h
  · rename_i hlt
    obtain ⟨_, _, h⟩ := Option.map_eq_some_iff.mp h
    obtain ⟨rfl, rfl⟩ := Prod.mk.inj h
    exact ⟨ha, hlt⟩
  · cases h

/-- Among procedures and triggers one is found or none fits. The one that is found lacks a parameter
for every argument beyond its own parameters. -/
theorem find?_spec {config : Config} (hm : ∀ m ∈ methods, m.kind.isMethod) :
    ∃ found, find? exactOnly methods arguments config = .ok found ∧
      ∀ c ∈ found, c.method ∈ methods ∧ c.missing ≠ [] := by
  rw [find?]
  split
  · exact ⟨none, rfl, nofun⟩
  · rename_i m s hb
    obtain ⟨hmm, hlt⟩ := of_candidates (best?_mem hb)
    have hr : m.roleOf = .ok m.role := if_pos (hm m hmm)
    rw [hr]
    refine ⟨_, rfl, fun c hc => ?_⟩
    obtain rfl := Option.some.inj hc
    refine ⟨hmm, fun hn => ?_⟩
    dsimp only at hn
    cases ha : arguments.drop m.parameters.length with
    | nil =>
        have := List.drop_eq_nil_iff.mp ha
        omega
    | cons a as => rw [ha] at hn; cases hn

end CallTarget

theorem Node.mem_proceduresNamed (h : n ∈ o.proceduresNamed name) :
    n ∈ o.children ∧ n.kind = NodeKind.methodDeclaration :=
  mem_of_childrenOf (List.mem_filter.mp h).1

namespace CallFix

variable {ts : Trees} {call : Node} {target : Nat} {m : CallTarget}

/-- The object that a call goes to stands in the text of its document. -/
theorem of_callee? {caller : Node} {elsewhere : Bool} (hd : d ∈ ctx.workspace.documents)
    (hc : call ∈ (parse d.text).nodes)
    (h : callee? ctx.workspace.trees d.id caller call = some (target, o, name, elsewhere)) :
    ∃ doc ∈ ctx.workspace.documents, doc.id = target ∧ o ∈ (parse doc.text).nodes := by
  simp only [callee?, Option.bind_eq_bind, Option.bind_eq_some_iff] at h
  obtain ⟨callee, _, h⟩ := h
  split at h
  · obtain ⟨a, ha, h⟩ := Option.bind_eq_some_iff.mp h
    cases h
    exact ⟨d, hd, rfl, (below_of_mem_ancestors hc (List.mem_of_find?_eq_some ha)).1⟩
  · simp only [Option.bind_eq_some_iff] at h
    obtain ⟨_, _, _, _, h⟩ := h
    split at h
    · cases h
    · simp only [Option.bind_eq_some_iff] at h
      obtain ⟨_, _, _, _, _, _, ⟨t, a⟩, hf, h⟩ := h
      cases h
      obtain ⟨⟨i, t⟩, ht, ho⟩ := List.mem_flatMap.mp (List.mem_of_find?_eq_some hf)
      obtain ⟨doc, hdoc, he⟩ := List.mem_map.mp ht
      cases he
      obtain ⟨_, ha, he⟩ := List.mem_map.mp ho
      cases he
      have hr : (parse doc.text).root ∈ (parse doc.text).nodes := mem_nodes.mpr rfl
      exact ⟨doc, hdoc, rfl,
        mem_nodes_of_child hr (Node.mem_of_childNodes (List.mem_filter.mp ha).1)⟩
  · cases h

/-- Looking for the procedure that a call means ends with a result. One that is found stands in the
text of its document and lacks parameters. -/
theorem target?_spec (hd : d ∈ ctx.workspace.documents) (hc : call ∈ (parse d.text).nodes) :
    ∃ found, target? ctx ctx.workspace.trees d.id call = .ok found ∧
      ∀ p ∈ found, ∃ doc ∈ ctx.workspace.documents, doc.id = p.1 ∧
        p.2.method ∈ (parse doc.text).nodes ∧ p.2.method.kind = NodeKind.methodDeclaration ∧
        p.2.missing ≠ [] := by
  rw [target?]
  split
  · exact ⟨none, rfl, nofun⟩
  · rename_i arguments target o name elsewhere h
    simp only [Option.bind_eq_bind, Option.bind_eq_some_iff] at h
    obtain ⟨caller, _, _, _, _, h, he⟩ := h
    cases he
    obtain ⟨doc, hdoc, hi, ho⟩ := of_callee? hd hc h
    have hk : ∀ m ∈ o.proceduresNamed name, m.kind.isMethod := fun m hm => by
      rw [(Node.mem_proceduresNamed hm).2]
      rfl
    obtain ⟨found, hf, hm⟩ := @CallTarget.find?_spec elsewhere _ arguments ctx.config hk
    rw [hf]
    refine ⟨_, rfl, fun p hp => ?_⟩
    obtain ⟨m, hfm, rfl⟩ := Option.map_eq_some_iff.mp hp
    obtain ⟨hmo, hne⟩ := hm m hfm
    obtain ⟨hmc, hmk⟩ := Node.mem_proceduresNamed hmo
    exact ⟨doc, hdoc, hi, mem_nodes_of_child ho hmc, hmk, hne⟩

end CallFix

theorem Publisher.of_headerAt? (hn : headerAt? (parse text) span = some n) :
    n ∈ (parse text).nodes ∧ n.kind.isMethod ∧ ∃ b, n.child? NodeKind.block = some b := by
  simp only [headerAt?, Option.bind_eq_bind, Option.bind_eq_some_iff] at hn
  obtain ⟨m, hm, b, hb, hn⟩ := hn
  split at hn
  · cases hn
    obtain ⟨hmn, hmk⟩ := of_findAt? hm
    exact ⟨hmn, by rw [← Node.isAny_methods, hmk], b, hb⟩
  · cases hn

theorem Label.of_literalAt? (hn : literalAt? (parse text) span = some n) :
    n ∈ (parse text).nodes ∧ n.kind = NodeKind.literalExpression := by
  simp only [literalAt?, Option.bind_eq_bind, Option.bind_eq_some_iff] at hn
  obtain ⟨m, hm, _, _, _, _, _, _, hn⟩ := hn
  split at hn
  · cases hn
    obtain ⟨hmn, hmk⟩ := of_findAt? hm
    exact ⟨hmn, by simpa [Node.isAny] using hmk⟩
  · cases hn

theorem FieldAssignment.of_at? {a : FieldAssignment} (ha : at? (parse text) span = some a) :
    a.statement ∈ (parse text).nodes ∧ a.statement.kind = NodeKind.assignmentStatement := by
  simp only [at?, Option.bind_eq_bind, Option.bind_eq_some_iff] at ha
  obtain ⟨m, hm, ha⟩ := ha
  obtain ⟨hmn, hmk⟩ := of_findAt? hm
  split at ha
  · split at ha
    · simp only [Option.bind_eq_some_iff] at ha
      obtain ⟨_, _, _, _, ha⟩ := ha
      split at ha
      · cases ha
        exact ⟨hmn, by simpa [Node.isAny] using hmk⟩
      · cases ha
    · cases ha
  · cases ha

/-! ## What is offered -/

/-- What an action does that is offered for a range of a document: it changes this document by edits
that are known, or it runs a command for a procedure or for statements that were found. -/
inductive Offers (ctx : Context) (d : Document) (span : Span) : Effect → Prop where
  | extend {call target m kind} : CallFix.callAt? (parse d.text) span = some call →
      CallFix.target? ctx ctx.workspace.trees d.id call = .ok (some (target, m)) →
      (kind = .addParameters ∨ ∃ obsolete, kind = .addOverload obsolete) →
      Offers ctx d span (.command ⟨kind, target, m.method.commandOffset, m.missing⟩)
  | publish {n side} : Publisher.headerAt? (parse d.text) span = some n →
      Offers ctx d span (.command ⟨.addPublisher side, d.id, n.commandOffset, []⟩)
  | move {n es} : MoveToGlobal.declarationAt? (parse d.text) span = some n →
      MoveToGlobal.edits? n = some es → Offers ctx d span (.change (Change.ofEdits d.id es))
  | label {n es} : Label.literalAt? (parse d.text) span = some n →
      Label.edits? ctx n = some es → Offers ctx d span (.change (Change.ofEdits d.id es))
  | validate {a} : FieldAssignment.at? (parse d.text) span = some a →
      Offers ctx d span (.change (Change.ofEdits d.id [⟨a.statement.span, a.validation⟩]))
  | extract {s} : Selection.at? (parse d.text) span = .ok (some s) → s.mayExit = false →
      Offers ctx d span (.command ⟨.extractProcedure span.stop, d.id, span.start, []⟩)

/-- The computation gives actions that are offered, whoever is there to be asked. -/
def Gives (ctx : Context) (d : Document) (span : Span) (x : Refactoring (List Action)) : Prop :=
  Meets ctx.workspace False False x fun actions => ∀ a ∈ actions, Offers ctx d span a.effect

/-- Where a source considers a range, it gives actions. -/
def Provider.Serves (ctx : Context) (d : Document) (span : Span) (p : Provider) : Prop :=
  Meets ctx.workspace False False (p.considers ctx d.id span) fun considered =>
    considered → Gives ctx d span (p.actions ctx d.id span)

section Providers

variable (hw : ctx.workspace.Numbered) (hd : d ∈ ctx.workspace.documents)

include hw hd

theorem Provider.serves_ofTarget {α : Type} {find? : SyntaxTree → Span → Option α}
    {considered : α → Bool} {make : Context → Nat → SyntaxTree → α → Refactoring (List Action)}
    (h : ∀ a, find? (parse d.text) span = some a →
      Gives ctx d span (make ctx d.id (parse d.text) a)) :
    (Provider.ofTarget find? considered make).Serves ctx d span := by
  refine (Context.meets_tree? hw hd).bind fun t ht => ?_
  subst ht
  refine meets_pure fun _ => (Context.meets_tree? hw hd).bind fun t ht => ?_
  subst ht
  dsimp only
  split
  · exact meets_pure nofun
  · exact h _ ‹_›

theorem CallFix.serves : CallFix.provider.Serves ctx d span := by
  refine Provider.serves_ofTarget hw hd fun call hc => ?_
  refine (Context.meets_trees hw).bind fun ts hts => ?_
  subst hts
  obtain ⟨found, hf, _⟩ := CallFix.target?_spec hd (of_findAt? hc).1
  refine (meets_ofFault hf (Q := (· = found)) rfl).bind fun r hr => ?_
  subst hr
  cases r with
  | none => exact meets_pure nofun
  | some p =>
      obtain ⟨target, m⟩ := p
      refine meets_pure fun a ha => ?_
      split at ha
      · rw [CallFix.actionsFor] at ha
        dsimp only at ha
        rcases List.mem_cons.mp ha with rfl | ha
        · exact .extend hc hf (.inl rfl)
        · split at ha
          · cases ha
          · rcases List.mem_pair.mp ha with rfl | rfl
            all_goals exact .extend hc hf (.inr ⟨_, rfl⟩)
      · cases ha

theorem Publisher.serves : Publisher.provider.Serves ctx d span := by
  refine Provider.serves_ofTarget hw hd fun n hn => meets_pure fun a ha => ?_
  split at ha
  · cases ha
  · obtain ⟨side, _, rfl⟩ := List.mem_map.mp ha
    exact .publish hn

theorem MoveToGlobal.serves : MoveToGlobal.provider.Serves ctx d span := by
  refine Provider.serves_ofTarget hw hd fun n hn => meets_pure fun a ha => ?_
  split at ha
  · cases ha
  · obtain rfl := List.mem_singleton.mp ha
    exact .move hn ‹_›

theorem Label.serves : Label.provider.Serves ctx d span := by
  refine Provider.serves_ofTarget hw hd fun n hn => meets_pure fun a ha => ?_
  split at ha
  · cases ha
  · obtain rfl := List.mem_singleton.mp ha
    exact .label hn ‹_›

theorem FieldAssignment.serves : FieldAssignment.provider.Serves ctx d span := by
  refine Provider.serves_ofTarget hw hd fun a ha => ?_
  refine (Context.meets_trees hw).bind fun _ _ => meets_pure fun x hx => ?_
  split at hx
  · obtain rfl := List.mem_singleton.mp hx
    exact .validate ha
  · cases hx

theorem Extraction.serves (hs : d.text.HasRange span) :
    Extraction.provider.Serves ctx d span := by
  rw [Provider.Serves, Extraction.provider]
  dsimp only
  split
  · exact meets_pure nofun
  · refine (Context.meets_tree? hw hd).bind fun t ht => ?_
    subst ht
    obtain ⟨s, hs⟩ := Selection.exists_at? hs
    refine (meets_ofFault hs (Q := (· = s)) rfl).bind fun r hr => ?_
    subst hr
    refine meets_pure fun hc => meets_pure fun a ha => ?_
    obtain rfl := List.mem_singleton.mp ha
    cases r with
    | none => cases hc
    | some s => exact .extract hs (by simpa using hc)

theorem Provider.serves_of_mem (hs : d.text.HasRange span) :
    ∀ p ∈ Action.providers, p.Serves ctx d span := by
  simp only [Action.providers, List.forall_mem_cons, List.not_mem_nil, false_imp_iff,
    implies_true, and_true]
  exact ⟨CallFix.serves hw hd, Publisher.serves hw hd, MoveToGlobal.serves hw hd,
    Label.serves hw hd, FieldAssignment.serves hw hd, Extraction.serves hw hd hs⟩

omit hw hd in
theorem Action.gives_offeredBy {ps : List Provider} (h : ∀ p ∈ ps, p.Serves ctx d span) :
    Gives ctx d span (Action.offeredBy ctx d.id span ps) := by
  induction ps with
  | nil => exact meets_pure nofun
  | cons p ps ih =>
      have ih := ih fun q hq => h q (.tail _ hq)
      have hk : ∀ first : List Action, (∀ a ∈ first, Offers ctx d span a.effect) →
          Gives ctx d span do return first ++ (← offeredBy ctx d.id span ps) := fun first hf =>
        ih.bind fun rest hr => meets_pure fun a ha => (List.mem_append.mp ha).elim (hf a) (hr a)
      refine (h p List.mem_cons_self).bind fun considered hc => ?_
      dsimp only
      split
      · exact (hc ‹_›).bind hk
      · exact (meets_pure nofun).bind hk

theorem Action.gives_offered (hs : d.text.HasRange span) :
    Gives ctx d span (Action.offered ctx d.id span) :=
  gives_offeredBy (Provider.serves_of_mem hw hd hs)

end Providers

end AlRefactor
