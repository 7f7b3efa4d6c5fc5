import AlRefactor.Proofs.Action.BestFit
import AlRefactor.Proofs.Action.Performing
import AlRefactor.Proofs.Edit.Declaring
import AlRefactor.Proofs.Edit.Parameters

/-!
# What a procedure declares once it has the parameters that a call gives

The names of missing parameters differ from each other and from those of the parameters that are there.
The locals and a named return value are not looked at: the procedure, or the overload that keeps its old
header, declares a name twice just if one of them has the name of a missing parameter.
-/

namespace AlRefactor

open SyntaxTree Refactoring Lexeme

/-! ## Lists of names -/

namespace Text

variable {ps ms ls : List Text}

/-- No two names of a list are the same. -/
def Distinct (ns : List Text) : Prop := ns.Pairwise fun a b => a.sameName b = false

theorem distinct_append :
    Distinct (ps ++ ls) ↔ Distinct ps ∧ Distinct ls ∧ ∀ p ∈ ps, ∀ l ∈ ls, p.sameName l = false :=
  List.pairwise_append

/-- New names that differ from those in front of them only have to differ from those behind them. -/
theorem distinct_between (h : Distinct (ps ++ ls)) (hp : ∀ p ∈ ps, ∀ m ∈ ms, p.sameName m = false)
    (hm : Distinct ms) : Distinct (ps ++ ms ++ ls) ↔ ∀ m ∈ ms, ∀ l ∈ ls, m.sameName l = false := by
  obtain ⟨hps, hls, hpl⟩ := distinct_append.mp h
  rw [distinct_append, distinct_append]
  constructor
  · rintro ⟨-, -, hall⟩ m hm
    exact hall m (List.mem_append_right _ hm)
  · intro hml
    refine ⟨⟨hps, hm, hp⟩, hls, fun a ha => ?_⟩
    exact (List.mem_append.mp ha).elim (hpl a) (hml a)

end Text

/-! ## Names of a procedure -/

namespace Node

variable {text t' : Text} {n n' : Node} {e : Edit} {missing : List Variable}

/-- The names that a procedure declares: those of its parameters, its locals and its return value. -/
def declaredNames (n : Node) : List Text := n.parameters.map (·.name) ++ (TakenNames.ofMethod n).locals

/-- The names that it declares with further parameters. -/
def extendedNames (n : Node) (missing : List Variable) : List Text :=
  n.parameters.map (·.name) ++ missing.map (·.name) ++ (TakenNames.ofMethod n).locals

/-- The names that an overload with the header of a procedure declares. The missing parameters that no
literal stands for are its locals. -/
def overloadNames (n : Node) (missing : List Variable) : List Text :=
  n.parameters.map (·.name) ++ (missing.filter (·.type.defaultValue?.isNone)).map (·.name) ++
    (n.returnValue?.bind (·.name)).toList

/-- Outside of the list of parameters, the first child of a kind is the same. -/
theorem KeepsRest.child? (h : KeepsRest text t' n n') : ∃ L S M, Spliced text t' L S M ∧
    ∀ k : Kind, k ≠ NodeKind.parameterList → Option.Rel (Twin text t' L S) (n.child? k) (n'.child? k) := by
  obtain ⟨L, S, M, xs, xs', l, l', ys, ys', hS, hc, hc', hl, hl', hx, hy⟩ := h
  refine ⟨L, S, M, hS, fun k hk => ?_⟩
  have hno {l : Node} (hl : l.kind = NodeKind.parameterList) : l.is k = false := by
    rw [Node.is, hl]
    exact beq_false_of_ne hk.symm
  rw [Node.child?, Node.child?, hc, hc', List.find?_append, List.find?_append, List.find?_cons, List.find?_cons,
    hno hl, hno hl']
  have hf := find?_of_twins hx k
  generalize xs.find? (·.is k) = a, xs'.find? (·.is k) = b at hf
  cases hf with
  | none => exact find?_of_twins hy k
  | some hab => exact .some hab

theorem names_locals (n : Node) :
    n.locals.map (·.name) = (((n.child? NodeKind.varSection).map contents).getD []).map (·.1) := by
  rw [locals, localDeclarations]
  cases n.child? NodeKind.varSection with
  | none => rfl
  | some s =>
      rw [Option.map_some, Option.map_some, Option.getD_some, Option.getD_some, contents, List.map_map, List.map_map]
      rfl

/-- The locals and the return value have the names that they had. -/
theorem KeepsRest.locals (h : KeepsRest text t' n n') :
    (TakenNames.ofMethod n').locals = (TakenNames.ofMethod n).locals := by
  obtain ⟨L, S, M, hS, hc⟩ := h.child?
  have hlocals : n'.locals.map (·.name) = n.locals.map (·.name) := by
    rw [names_locals, names_locals]
    have hs := hc NodeKind.varSection (by decide)
    generalize n.child? NodeKind.varSection = a, n'.child? NodeKind.varSection = b at hs
    cases hs with
    | none => rfl
    | some hs => rw [Option.map_some, Option.map_some, contents_of_twin hS hs]
  have hreturned : n'.returnValue?.bind (·.name) = n.returnValue?.bind (·.name) := by
    rw [returnValue?, returnValue?, Option.bind_map, Option.bind_map]
    have hr := hc NodeKind.returnValue (by decide)
    generalize n.child? NodeKind.returnValue = a, n'.child? NodeKind.returnValue = b at hr
    cases hr with
    | none => rfl
    | some hr => exact hr.name hS
  rw [TakenNames.ofMethod, TakenNames.ofMethod, hlocals, hreturned]

/-- With further parameters a procedure declares their names too. -/
theorem AddsParameters.declaredNames (h : AddsParameters text t' e missing n n') (hr : KeepsRest text t' n n') :
    n'.declaredNames = n.extendedNames missing := by
  have hp := congrArg (List.map (·.1)) h.parameters
  simp only [List.map_append, List.map_map] at hp
  rw [Node.declaredNames, hr.locals]
  exact congrArg (· ++ _) hp

/-! ### Names that are declared twice -/

/-- The names of further parameters differ from each other and from those of the parameters. -/
def NamesApart (n : Node) (missing : List Variable) : Prop :=
  (∀ p ∈ n.parameters, ∀ v ∈ missing, p.name.sameName v.name = false) ∧
    missing.Pairwise fun v w => v.name.sameName w.name = false

theorem NamesApart.filter (h : n.NamesApart missing) (p : Variable → Bool) : n.NamesApart (missing.filter p) :=
  ⟨fun q hq v hv => h.1 q hq v (List.mem_filter.mp hv).1, h.2.sublist List.filter_sublist⟩

theorem NamesApart.distinct_between {ls : List Text} (h : n.NamesApart missing)
    (hd : Text.Distinct (n.parameters.map (·.name) ++ ls)) :
    Text.Distinct (n.parameters.map (·.name) ++ missing.map (·.name) ++ ls) ↔
      ∀ v ∈ missing, ∀ l ∈ ls, v.name.sameName l = false := by
  rw [Text.distinct_between hd, List.forall_mem_map]
  · intro p hp m hm
    obtain ⟨q, hq, rfl⟩ := List.mem_map.mp hp
    obtain ⟨v, hv, rfl⟩ := List.mem_map.mp hm
    exact h.1 q hq v hv
  · exact List.pairwise_map.mpr h.2

/-- A procedure with further parameters declares a name twice just if one of them has the name of a local or
of the return value. -/
theorem distinct_extendedNames (h : n.NamesApart missing) (hd : Text.Distinct n.declaredNames) :
    Text.Distinct (n.extendedNames missing) ↔
      ∀ v ∈ missing, ∀ l ∈ (TakenNames.ofMethod n).locals, v.name.sameName l = false :=
  h.distinct_between hd

/-- An overload declares a name twice just if a variable that it declares has the name of the return value. -/
theorem distinct_overloadNames (h : n.NamesApart missing) (hd : Text.Distinct n.declaredNames) :
    Text.Distinct (n.overloadNames missing) ↔ ∀ v ∈ missing, v.type.defaultValue? = none →
      ∀ r ∈ n.returnValue?.bind (·.name), v.name.sameName r = false := by
  have hd : Text.Distinct (n.parameters.map (·.name) ++ (n.returnValue?.bind (·.name)).toList) :=
    hd.sublist (List.Sublist.append_left (List.sublist_append_right ..) _)
  rw [overloadNames, (h.filter _).distinct_between hd]
  simp only [List.mem_filter, Option.isNone_iff_eq_none, Option.mem_toList, Option.mem_def, and_imp]

end Node

/-! ## Commands that extend a procedure -/

namespace Node

variable {text : Text} {n : Node} {missing : List Variable} {e : Edit} {obsolete : Bool}
  {version : Option Text}

/-- The edits give a procedure further parameters. Where these keep apart from what is beside them, the new text
is without errors and the procedure declares the new names too. -/
def Extended (text : Text) (n : Node) (missing : List Variable) (es : List Edit) : Prop :=
  ∃ e t', es = [e] ∧ n.Extends missing e ∧ Edit.apply es text = .ok t' ∧
    ((∀ v ∈ missing, v.Passable) → e.KeepsApart text → ∃ n', n.AddsParameters text t' e missing n' ∧
      n'.declaredNames = n.extendedNames missing)

/-- The edits give a procedure further parameters and keep its header as an overload. -/
def Overloaded (text : Text) (n : Node) (missing : List Variable) (obsolete : Bool) (version : Option Text)
    (es : List Edit) : Prop :=
  ∃ block e t', es = [Edit.insert n.lineStart block, e] ∧ n.Forwards missing obsolete version block ∧
    n.Extends missing e ∧ Edit.apply es text = .ok t'

/-- What an operation on a procedure and further parameters for it does. -/
inductive ExtendedBy (text : Text) (n : Node) (missing : List Variable) (version : Option Text) :
    Operation → List Edit → Prop
  | parameters (es : List Edit) : n.Extended text missing es →
      ExtendedBy text n missing version .addParameters es
  | overload (obsolete : Bool) (es : List Edit) : n.Overloaded text missing obsolete version es →
      ExtendedBy text n missing version (.addOverload obsolete) es

section

variable (h : (parse text).ok) (hn : n ∈ (parse text).nodes) (hk : n.kind = NodeKind.methodDeclaration)
  (hm : missing ≠ [])

include h hn hk hm

theorem extended_extendParameters? (he : n.extendParameters? missing = some e) : Extended text n missing [e] := by
  have hmethod : n.kind.isMethod := by
    rw [hk]
    rfl
  obtain ⟨_, he', hx⟩ := exists_extends h hn hmethod hm
  obtain rfl := Option.some.inj (he.symm.trans he')
  have ha : Edit.apply [e] text = .ok (Edit.rewritten [e] 0 text) :=
    Edit.apply_adds fun f hf => List.mem_singleton.mp hf ▸ (beside_extendParameters? hn he).adds h
  refine ⟨e, _, rfl, hx, ha, fun hv hp => ?_⟩
  obtain ⟨t', n', happly, hadds, hrest⟩ := exists_addsParameters h hn hmethod hv hm hx hp
  obtain rfl := Except.ok.inj (ha.symm.trans happly)
  exact ⟨n', hadds, hadds.declaredNames hrest⟩

theorem overloaded_addOverload : Overloaded text n missing obsolete version (n.addOverload missing obsolete version) := by
  obtain ⟨block, e, _, _, _, hes, hf, hx, _, _, _, ha, _⟩ :=
    @apply_addOverload _ _ _ obsolete version h hn hk hm
  exact ⟨block, e, _, hes, hf, hx, ha⟩

end

end Node

namespace CallFix

/-- The missing parameters of a procedure that a call means have names of their own. -/
theorem namesApart_target? {ctx : Context} {ts : Trees} {document target : Nat} {call : Node} {m : CallTarget}
    (h : target? ctx ts document call = .ok (some (target, m))) : m.method.NamesApart m.missing := by
  rw [target?] at h
  split at h
  · cases h
  · rename_i arguments _ object name elsewhere _
    cases hf : CallTarget.find? elsewhere (object.proceduresNamed name) arguments ctx.config with
    | error f => rw [hf] at h; cases h
    | ok found =>
        rw [hf] at h
        obtain ⟨c, rfl, hc⟩ := Option.map_eq_some_iff.mp (Except.ok.inj h)
        obtain ⟨-, rfl⟩ := Prod.mk.inj hc
        exact CallTarget.apart_find? hf

end CallFix

section Offered

variable {ctx : Context} {d : Document} {span : Span} {c : Command} {silent refusal : Prop}

/-- A command that extends a procedure changes its document, by the edits that do so. -/
theorem Command.meets_execute_extends (hw : ctx.workspace.Numbered) (hd : d ∈ ctx.workspace.documents)
    (h : (parse d.text).ok) {n : Node} (hn : n ∈ (parse d.text).nodes) (hk : n.kind = NodeKind.methodDeclaration)
    {missing : List Variable} (hm : missing ≠ []) {kind : Operation}
    (hkind : kind = .addParameters ∨ ∃ obsolete, kind = .addOverload obsolete) :
    Meets ctx.workspace silent refusal (execute ⟨kind, d.id, n.commandOffset, missing⟩ ctx) fun r =>
      ∃ es, r.change = .ofEdits d.id es ∧ n.ExtendedBy d.text missing ctx.project.version kind es := by
  rcases hkind with rfl | ⟨obsolete, rfl⟩
  · refine (meets_execute_addParameters hw hd h hn hk hm).mono fun r hr => ?_
    obtain ⟨e, he, hr⟩ := hr
    exact ⟨_, hr, .parameters _ (Node.extended_extendParameters? h hn hk hm he)⟩
  · exact (meets_execute_addOverload hw hd h hn hk hm obsolete).mono fun r hr =>
      ⟨_, hr, .overload _ _ (Node.overloaded_addOverload h hn hk hm)⟩

/-- An offered command that extends a procedure finds it, and changes just its document. If the procedure
declares no name twice, it does with its further parameters just if one of these has the name of a local or of
the return value, and its overload just if a variable that no literal stands for has that of the return value. -/
theorem Command.declares_offered (hw : ctx.workspace.Numbered)
    (hok : ∀ d ∈ ctx.workspace.documents, (parse d.text).ok) (hd : d ∈ ctx.workspace.documents)
    (ho : Offers ctx d span (.command c)) (hc : c.kind = .addParameters ∨ ∃ obsolete, c.kind = .addOverload obsolete) :
    ∃ doc ∈ ctx.workspace.documents, ∃ n ∈ (parse doc.text).nodes, n.kind = NodeKind.methodDeclaration ∧
      c.document = doc.id ∧ (parse doc.text).procedureAround? c.offset = some n ∧
      (Meets ctx.workspace False False (c.execute ctx) fun r => ∃ es, r.change = .ofEdits doc.id es ∧
        n.ExtendedBy doc.text c.missing ctx.project.version c.kind es) ∧
      (Text.Distinct n.declaredNames →
        (Text.Distinct (n.extendedNames c.missing) ↔
          ∀ v ∈ c.missing, ∀ l ∈ (TakenNames.ofMethod n).locals, v.name.sameName l = false) ∧
        (Text.Distinct (n.overloadNames c.missing) ↔ ∀ v ∈ c.missing, v.type.defaultValue? = none →
          ∀ r ∈ n.returnValue?.bind (·.name), v.name.sameName r = false)) := by
  cases ho with
  | @extend call target m kind hcall hf hkind =>
      obtain ⟨found, hf', hspec⟩ := CallFix.target?_spec hd (of_findAt? hcall).1
      obtain rfl := Except.ok.inj (hf.symm.trans hf')
      obtain ⟨doc, hdoc, rfl, hmn, hmk, hm⟩ := hspec _ rfl
      have hapart := CallFix.namesApart_target? hf
      exact ⟨doc, hdoc, m.method, hmn, hmk, rfl, procedureAround?_commandOffset (hok doc hdoc) hmn hmk,
        meets_execute_extends hw hdoc (hok doc hdoc) hmn hmk hm hkind, fun hnames =>
        ⟨Node.distinct_extendedNames hapart hnames, Node.distinct_overloadNames hapart hnames⟩⟩
  | publish => rcases hc with hc | ⟨_, hc⟩ <;> cases hc
  | extract => rcases hc with hc | ⟨_, hc⟩ <;> cases hc

end Offered

/-- A procedure that returns `x` gets a parameter `x`, and its overload a local `x`. -/
theorem CallFix.target?_declares_twice :
    let text : Text := "codeunit 1 A \x7b\n procedure P() x: Boolean begin end; " ++
      "procedure Q(x: Codeunit A) begin P(x); end; \x7d"
    let ctx : Context := ⟨.add .empty "doc0.al" text, .standard, .unknown⟩
    let longer : List Edit := [Edit.insert 28 "x: Codeunit A"]
    let overload : List Edit := [Edit.insert 15 (" procedure P() x: Boolean\n var\n     x: Codeunit A;\n begin\n" ++
      "     x := P(x);\n end;\n\n"), Edit.insert 28 "x: Codeunit A"]
    (parse text).ok ∧ (∃ call c, callAt? (parse text) ⟨85, 85⟩ = some call ∧
        target? ctx ctx.workspace.trees 0 call = .ok (some (0, c)) ∧ c.method.role.acceptsParameters ∧
        c.method.declaredNames = ["x".toList] ∧ (c.method.extendParameters? c.missing).toList = longer ∧
        c.method.addOverload c.missing false ctx.project.version = overload) ∧
      (∃ t, Edit.apply longer text = .ok t ∧ (parse t).ok ∧
        ∃ n ∈ (parse t).nodes, n.name = some "P".toList ∧ n.declaredNames = ["x".toList, "x".toList]) ∧
      ∃ t, Edit.apply overload text = .ok t ∧ (parse t).ok ∧ ∃ n ∈ (parse t).nodes,
        n.name = some "P".toList ∧ n.parameters = [] ∧ n.declaredNames = ["x".toList, "x".toList] := by
  intro text ctx longer overload
  have hr : (parse text).ok ∧ (callAt? (parse text) ⟨85, 85⟩).any fun call =>
      (target? ctx ctx.workspace.trees 0 call).toOption.join.any fun p => p.1 == 0 &&
        (p.2.method.role.acceptsParameters && p.2.method.declaredNames == ["x".toList] &&
          (p.2.method.extendParameters? p.2.missing).toList == longer &&
          p.2.method.addOverload p.2.missing false ctx.project.version == overload) := by decide +kernel
  simp only [Option.any_eq_true, Bool.and_eq_true, beq_iff_eq, Prod.exists] at hr
  obtain ⟨hok, call, hc, target, c, hf, rfl, ⟨⟨ha, hd⟩, hl⟩, ho⟩ := hr
  have hlonger : Edit.apply longer text = .ok (Edit.rewritten longer 0 text) :=
    Edit.apply_apart (by decide) (by decide) (by decide)
  have hoverload : Edit.apply overload text = .ok (Edit.rewritten overload 0 text) :=
    Edit.apply_apart (by decide) (by decide) (by decide)
  exact ⟨hok, ⟨call, c, hc, Extraction.eq_ok_of_toOption (Option.join_eq_some_iff.mp hf), ha, hd, hl, ho⟩,
    ⟨_, hlonger, by decide +kernel⟩, _, hoverload, by decide +kernel⟩

end AlRefactor
