import AlRefactor.Action.Publisher
import AlRefactor.Proofs.Action.Extraction
import AlRefactor.Proofs.Edit.Insertion
import AlRefactor.Proofs.Text.Names

/-!
# Adding an event to a procedure

An event is added by insertions between tokens: the event itself with a name that no procedure of the
object has, the statements that raise it at the start or at the end of the body, and, where they are
missing, the variable it reports with and the name of the return value.
-/

namespace AlRefactor

open SyntaxTree

variable {text : Text} {n o b m : Node} {e : Edit}

/-! ## Parameters of an event -/

namespace Candidate

/-- No two candidates have the same name. -/
theorem distinct_spec (cs : List Candidate) :
    (distinct cs).Pairwise fun c d => c.key ≠ d.key := by
  refine List.foldlRecOn (motive := fun seen : List Candidate =>
    seen.Pairwise fun c d => c.key ≠ d.key) cs _ .nil ?_
  intro seen hp c _
  split
  · exact hp
  · rename_i hs
    refine List.pairwise_append.mpr ⟨hp, List.pairwise_singleton .., fun a ha d hd hk => ?_⟩
    obtain rfl := List.mem_singleton.mp hd
    exact hs (List.any_eq_true.mpr ⟨a, ha, beq_iff_eq.mpr hk⟩)

end Candidate

namespace EventPlan

theorem pairwise_select {cs : List Candidate} {chosen : List Nat}
    (h : cs.Pairwise fun c d => c.key ≠ d.key) :
    (select cs chosen).Pairwise fun c d => c.key ≠ d.key := by
  have hs : (cs.zipIdx.map (·.1)).Sublist cs := by
    rw [List.zipIdx_map_fst]
  rw [select]
  exact ((List.mergeSort_perm ..).pairwise_iff Ne.symm).mpr
    (h.sublist ((List.filter_sublist.map _).trans hs))

/-- Only procedures and triggers get events, and no two parameters of an event have the same
name. -/
theorem make_spec {ctx : Context} {side : Side} {plan : EventPlan} {w w' : Progress}
    (h : (make ctx side n).run.run w = (.ok plan, w')) :
    n.kind.isMethod ∧ plan.parameters.Pairwise fun c d => c.key ≠ d.key := by
  rw [make] at h
  dsimp only at h
  split at h
  · obtain ⟨_, _, h, _⟩ := Refactoring.exists_of_bind h
    cases h
  · rename_i hk
    obtain ⟨_, _, _, h⟩ := Refactoring.exists_of_bind h
    obtain ⟨_, _, _, h⟩ := Refactoring.exists_of_bind h
    obtain ⟨_, _, _, h⟩ := Refactoring.exists_of_bind h
    cases h
    exact ⟨by simpa using hk, pairwise_select (Candidate.distinct_spec _)⟩

end EventPlan

namespace Publisher

/-! ## The edits -/

/-- The statements that raise an event stand directly behind the `begin` of a body, or with nothing
but blanks between them and an `exit` that ends it or its `end`. -/
def RaisedAt (text : Text) (b : Node) (p : Nat) : BodyEnd → Prop
  | .top => ∃ m ∈ b.children, m.kind = TokenKind.kwBegin ∧ p = m.stop
  | .bottom => ∃ m ∈ b.children, text.Bare p m.start ∧
      (b.childNodes.getLast? = some m ∧ m.kind = NodeKind.exitStatement ∨ m.kind = TokenKind.kwEnd)

theorem raisedAt {name : Text} {arguments : List Text} {handled : Bool} {place : BodyEnd}
    (hb : b ∈ (parse text).nodes) (he : b.raiseEvent? name arguments handled place = some e) :
    RaisedAt text b e.span.start place := by
  rw [Node.raiseEvent?] at he
  split at he
  · cases place with
    | top =>
        obtain ⟨m, hm, rfl⟩ := Option.map_eq_some_iff.mp he
        exact ⟨m, (Node.mem_of_child? hm).1, (Node.mem_of_child? hm).2, rfl⟩
    | bottom =>
        obtain ⟨⟨m, indent⟩, hm, rfl⟩ := Option.map_eq_some_iff.mp he
        obtain ⟨hmb, _, hk⟩ := Node.of_bottomPlace? hm
        refine ⟨m, hmb, ?_, hk⟩
        have hmn := mem_nodes_of_child hb hmb
        dsimp only
        split
        · exact Node.bare_lineStart hmn ‹_›
        · exact .refl (seams hmn).1.1.boundary
  · cases he

/-- What an event with planned parameters adds: last the statements that raise it and the event, both
with the same name, which is new, and with as many arguments as parameters. -/
structure Raises (text : Text) (o b : Node) (side : Side) (plan : EventPlan) (es : List Edit) :
    Prop where
  adds : ∀ e ∈ es, e.Adds text
  raised : ∃ name call event, [call, event] <:+ es ∧
    (∀ t ∈ o.procedureNames, t.sameName name = false) ∧
    RaisedAt text b call.span.start (match side with | .before => .top | .after => .bottom) ∧
    call.text.Writes (raiseLines name (plan.parameters.map (·.argument))
      (side == .before && plan.usesHandled)) ∧
    event.text.Writes (eventLines name (plan.parameters.map (·.parameter)))

/-- Whatever is wrong with a text, an event is added by insertions beside nodes. -/
theorem beside_edits? {ctx : Context} {side : Side} {name : Text} {plan : EventPlan}
    {es : List Edit} (hn : n ∈ (parse text).nodes) (hi : n.id ≠ 0) (ho : o ∈ (parse text).nodes)
    (hb : b ∈ (parse text).nodes) (he : edits? ctx side o b n name plan = some es) :
    ∀ e ∈ es, e.Beside text := by
  simp only [edits?, Option.bind_eq_bind, Option.bind_eq_some_iff] at he
  obtain ⟨call, hcall, event, hevent, he⟩ := he
  obtain rfl := Option.some.inj he
  intro e he
  rcases List.mem_append.mp he with he | he
  · rcases List.mem_append.mp he with he | he
    · obtain ⟨r, _, hr⟩ := Option.bind_eq_some_iff.mp (Option.mem_toList.mp he)
      exact Node.beside_nameReturnValue? hn hr
    · split at he
      · exact Node.beside_declare? hn (Option.mem_toList.mp he)
      · cases he
  · rcases List.mem_pair.mp he with rfl | rfl
    · exact Node.beside_raiseEvent? hb hcall
    · refine Placement.beside_insert? ho (fun m hm => ?_) hevent
      obtain rfl := Option.mem_some.mp hm
      exact ⟨hn, hi⟩

theorem raises_edits? {ctx : Context} {side : Side} {name : Text} {plan : EventPlan}
    {es : List Edit} (h : (parse text).ok) (hn : n ∈ (parse text).nodes) (hk : n.kind.isMethod)
    (ho : n.object? = some o) (hb : n.child? NodeKind.block = some b)
    (he : edits? ctx side o b n name plan = some es) : Raises text o b side plan es := by
  have hon := (below_of_mem_ancestors hn (List.mem_of_find?_eq_some ho)).1
  have hbn := mem_nodes_of_child hn (Node.mem_of_child? hb).1
  have hes := beside_edits? hn (Node.id_ne_zero_of_isMethod hn hk) hon hbn he
  simp only [edits?, Option.bind_eq_bind, Option.bind_eq_some_iff] at he
  obtain ⟨call, hcall, event, hevent, he⟩ := he
  obtain rfl := Option.some.inj he
  have hfresh := Text.fresh_not_same o.procedureNames (side.word ++ name.unquote.plain)
  generalize Text.fresh Text.sameName _ _ = new at hcall hevent hfresh
  refine ⟨fun e he => (hes e he).adds h, new, call, event, List.suffix_append _ _, hfresh,
    raisedAt hbn hcall, ?_, Placement.writes_insert? hevent⟩
  rw [Node.raiseEvent?] at hcall
  split at hcall
  · exact Node.writes_insertStatements? hcall
  · cases hcall

/-- Where nothing is wrong with a text, adding an event to a procedure changes this text alone, and by
insertions between tokens that can be carried out. -/
theorem apply_add {ctx : Context} {document : Nat} {side : Side} {c : Change} {w : Progress}
    (h : (parse text).ok) (hn : n ∈ (parse text).nodes)
    (hr : ((add ctx document n side).run.run w).1 = .ok c) :
    ∃ o b plan es, n.object? = some o ∧ n.child? NodeKind.block = some b ∧
      c = Change.ofEdits document es ∧ Edit.apply es text = .ok (Edit.rewritten es 0 text) ∧
      (plan.parameters.Pairwise fun c d => c.key ≠ d.key) ∧ Raises text o b side plan es := by
  have hr : (add ctx document n side).run.run w = (.ok c, _) := Prod.ext hr rfl
  rw [add] at hr
  split at hr
  · rename_i o b name ho hb _
    obtain ⟨plan, _, hp, hr⟩ := Refactoring.exists_of_bind hr
    obtain ⟨hk, hd⟩ := EventPlan.make_spec hp
    split at hr
    · rename_i es he
      cases hr
      have hes := raises_edits? h hn hk ho hb he
      exact ⟨o, b, plan, es, ho, hb, rfl, Edit.apply_adds hes.adds, hd, hes⟩
    · cases hr
  · cases hr

/-- The last statement of a body needs no semicolon, but one is missing once the event is raised
behind it: the new text has a syntax error. -/
theorem add_unseparated :
    let text : Text := "codeunit 1 A \x7b procedure P() begin Q() end; procedure Q() begin end; \x7d"
    let ctx : Context := ⟨.empty, .standard, .unknown⟩
    let es : List Edit := [Edit.insert 39 "\n    OnAfterP();\n", Edit.insert 69
      "\n[IntegrationEvent(false, false)]\nlocal procedure OnAfterP()\nbegin\nend;\n"]
    (parse text).ok ∧
      (∃ n ∈ (parse text).nodes, n.name = some ("P" : Text) ∧
        ((add ctx 0 n .after).run.run ⟨.empty, .start .silent⟩).1 = .ok (Change.ofEdits 0 es)) ∧
      ∃ t, Edit.apply es text = .ok t ∧ (parse t).ok = false := by
  intro text ctx es
  have hn : (parse text).ok ∧ ∃ n ∈ (parse text).nodes, n.name = some ("P" : Text) ∧
      ((add ctx 0 n .after).run.run ⟨.empty, .start .silent⟩).1.toOption =
        some (Change.ofEdits 0 es) := by decide +kernel
  obtain ⟨h, n, hn, hp, hr⟩ := hn
  have ha : Edit.apply es text = .ok (Edit.rewritten es 0 text) :=
    Edit.apply_apart (by decide) (by decide) (by decide)
  exact ⟨h, ⟨n, hn, hp, Extraction.eq_ok_of_toOption hr⟩, _, ha, by decide +kernel⟩

end Publisher

end AlRefactor
