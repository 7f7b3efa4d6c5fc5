import AlRefactor.Proofs.Action.Plans
import AlRefactor.Proofs.Session.Questions

/-!
# Types of the parameters of an event

A parameter of an event is offered for a variable and passed under the name of this variable, or it is offered
for what the `exit` at the end returns. It has the type of what is passed, unless its name means something else
inside of the procedure: `IsHandled`, `Rec` and `xRec` are offered whether or not something is declared under
these names, and of two declarations of one name the one that is offered need not be the one that is meant.
-/

namespace AlRefactor

open SyntaxTree

variable {n : Node} {ctx : Context} {side : Side} {c : Candidate} {ts : Trees} {v : Variable} {name : Text}
  {given : Option Text}

/-! ## What names mean -/

/-- Where a name is looked for in a procedure, in this order, before it can mean a record. -/
def Node.inScope (n : Node) : List Variable :=
  n.locals ++ n.parameters ++ (n.returnValue?.bind (·.toVariable? none)).toList ++
    (n.object?.map (·.globals)).getD []

/-- A name means what is declared under it, or a record if nothing is. -/
theorem Trees.lookup?_cases (h : ts.lookup? n name = some v) :
    n.inScope.find? (·.name.sameName name) = some v ∨
      (∀ u ∈ n.inScope, u.name.sameName name = false) ∧
        (name.sameName "Rec" ∨ name.sameName "xRec") ∧ n.object?.bind ts.recordType? = some v.type := by
  rw [lookup?] at h
  refine (Option.or_eq_some_iff.mp h).imp_right fun ⟨hd, hr⟩ => ⟨?_, ?_⟩
  · exact fun u hu => Bool.eq_false_iff.mpr (List.find?_eq_none.mp hd u hu)
  · split at hr
    · rename_i hn
      obtain ⟨type, ht, rfl⟩ := Option.map_eq_some_iff.mp hr
      exact ⟨Bool.or_eq_true_iff.mp hn, ht⟩
    · cases hr

/-- The argument for a member is the member as it is written. -/
theorem Trees.expression_of_member {e : Node} {a : Argument} (hk : e.kind = NodeKind.memberAccessExpression)
    (h : ts.argument? n e = some a) : a.expression = e.text := by
  rw [argument?, hk] at h
  obtain ⟨receiver, -, h⟩ := Option.bind_eq_some_iff.mp h
  obtain ⟨member, -, h⟩ := Option.bind_eq_some_iff.mp h
  split at h
  · obtain ⟨record, -, h⟩ := Option.bind_eq_some_iff.mp h
    obtain ⟨⟨word, table⟩, -, h⟩ := Option.bind_eq_some_iff.mp h
    dsimp only at h
    split at h
    · obtain ⟨type, -, h⟩ := Option.bind_eq_some_iff.mp h
      cases h
      rfl
    · cases h
  · cases h

/-- Where the first of some elements is found by more, it is found by less as long as it fits. -/
theorem find?_of_imp {α : Type} {p q : α → Bool} {l : List α} {a : α} (h : l.find? p = some a)
    (hq : ∀ x, q x = true → p x = true) (ha : q a = true) : l.find? q = some a := by
  obtain ⟨-, as, bs, rfl, has⟩ := List.find?_eq_some_iff_append.mp h
  refine List.find?_eq_some_iff_append.mpr ⟨ha, as, bs, rfl, fun x hx => ?_⟩
  have hp := has x hx
  rw [Bool.not_eq_true'] at hp ⊢
  exact Bool.eq_false_iff.mpr fun hqx => Bool.false_ne_true (hp.symm.trans (hq x hqx))

/-! ## The name of a return value -/

/-- The name that a return value is given is not taken. -/
theorem Dialogue.not_sameName_askForReturnName {d : Dialogue} {names : TakenNames}
    (h : (d.askForReturnName names).1 = some name) : ∀ t ∈ names.all, t.sameName name = false := by
  rw [askForReturnName] at h
  split at h
  · exact Option.some.inj h ▸ Text.fresh_not_same _ _
  · obtain ⟨answer, ha, rfl⟩ := Option.map_eq_some_iff.mp h
    refine (TakenNames.conflict?_eq_none_iff.mp ?_).2
    rw [ask] at ha
    split at ha
    · cases ha
    · rename_i answers _
      have hs := settled_firstAccepted (fun t => (names.conflict? t.trim).map (·.message)) answers
      exact Option.map_eq_none_iff.mp (ha ▸ hs).reject_eq_none

/-- A return value as a variable has the name it is given, otherwise its own, and its type. -/
theorem ReturnValue.eq_of_toVariable? {r : ReturnValue} (h : r.toVariable? given = some v) :
    given.or r.name = some v.name ∧ v.type = r.type := by
  obtain ⟨m, hm, rfl⟩ := Option.map_eq_some_iff.mp h
  rw [hm, Variable.ownedBy?]
  cases r.owner <;> exact ⟨rfl, rfl⟩

/-- Whatever is declared takes its name. -/
theorem TakenNames.mem_all_ofMethod (hv : v ∈ n.inScope) : v.name ∈ (ofMethod n).all := by
  simp only [Node.inScope, List.mem_append, Option.mem_toList] at hv
  simp only [all, ofMethod, List.mem_append, List.mem_map, Option.mem_toList]
  rcases hv with ((hv | hv) | hv) | hv
  · exact .inl (.inl (.inl ⟨v, hv, rfl⟩))
  · exact .inl (.inr ⟨v, hv, rfl⟩)
  · obtain ⟨r, hr, hv⟩ := Option.bind_eq_some_iff.mp hv
    refine .inl (.inl (.inr ?_))
    rw [hr]
    exact (ReturnValue.eq_of_toVariable? hv).1
  · exact .inr ⟨v, hv, rfl⟩

namespace EventPlan

/-- The name that a return value is given is that of nothing that is declared. -/
theorem not_sameName_givenName {d e : Dialogue} (h : (givenName side n).run.run d = (some given, e)) :
    ∀ g ∈ given, ∀ u ∈ n.inScope, u.name.sameName g = false := by
  rintro g rfl u hu
  rw [givenName] at h
  split at h
  · rw [OptionT.run_map, StateT.run_map] at h
    have ht : (d.askForReturnName (TakenNames.ofMethod n)).1.map some = some (some g) := congrArg Prod.fst h
    obtain ⟨_, ht, hg⟩ := Option.map_eq_some_iff.mp ht
    exact Dialogue.not_sameName_askForReturnName (Option.some.inj hg ▸ ht) _ (TakenNames.mem_all_ofMethod hu)
  · cases h

/-! ## Where candidates come from -/

/-- What a source says about a procedure. -/
def Source.Stands (ts : Trees) (side : Side) (n : Node) (given : Option Text) : Source → Prop
  | .handled => True
  | .returned v _ => returned? side n given = some v
  | .exit v argument => finalExit? ts n = some (v, argument)
  | .record type | .previous type => n.object?.bind ts.recordType? = some type
  | .parameter v => v ∈ n.parameters
  | .localVariable v => v ∈ n.locals

/-- Sources of variables of the procedure. -/
def Source.isOwn : Source → Bool
  | .parameter _ | .localVariable _ => true
  | _ => false

theorem stands_sideSources {s : Source} (h : s ∈ sideSources ts side n given) :
    s.isOwn = false ∧ s.Stands ts side n given := by
  cases side with
  | before =>
      rcases List.mem_cons.mp h with rfl | h
      · exact ⟨rfl, trivial⟩
      · obtain ⟨v, hv, rfl⟩ := Option.map_eq_some_iff.mp (Option.mem_toList.mp h)
        exact ⟨rfl, hv⟩
  | after =>
      rcases List.mem_append.mp h with h | h
      · obtain ⟨⟨v, e⟩, hv, rfl⟩ := Option.map_eq_some_iff.mp (Option.mem_toList.mp h)
        exact ⟨rfl, hv⟩
      · obtain ⟨v, hv, rfl⟩ := Option.map_eq_some_iff.mp (Option.mem_toList.mp h)
        exact ⟨rfl, hv⟩

theorem eq_of_mem_recordSources {s : Source} (h : s ∈ recordSources ts n) :
    ∃ type, n.object?.bind ts.recordType? = some type ∧ (s = .record type ∨ s = .previous type) := by
  rw [recordSources] at h
  split at h
  · cases h
  · rename_i type ht
    exact ⟨type, ht, List.mem_pair.mp h⟩

theorem stands_sources {s : Source} (h : s ∈ sources ts side n given) : s.Stands ts side n given := by
  simp only [sources, List.mem_append, List.mem_map] at h
  rcases h with ((h | h) | ⟨v, hv, rfl⟩) | ⟨v, hv, rfl⟩
  · exact (stands_sideSources h).2
  · obtain ⟨type, ht, rfl | rfl⟩ := eq_of_mem_recordSources h <;> exact ht
  · exact hv
  · exact hv

/-- Where a parameter or a local of the procedure is the first of some sources, no other source is, and it is the first
of its kind. -/
theorem find?_own {p : Source → Bool} {s : Source} (ho : s.isOwn)
    (h : (sources ts side n given).find? p = some s) :
    (n.parameters.map Source.parameter).find? p = some s ∨ (n.locals.map Source.localVariable).find? p = some s := by
  rw [sources, List.append_assoc, List.find?_append] at h
  rcases Option.or_eq_some_iff.mp h with h | ⟨-, h⟩
  · have hno : s.isOwn = false := by
      rcases List.mem_append.mp (List.mem_of_find?_eq_some h) with hs | hs
      · exact (stands_sideSources hs).1
      · obtain ⟨type, -, rfl | rfl⟩ := eq_of_mem_recordSources hs <;> rfl
    exact absurd ho (by rw [hno]; decide)
  · rw [List.find?_append] at h
    exact (Option.or_eq_some_iff.mp h).imp_right And.right

theorem find?_parameter {p : Source → Bool} (h : (sources ts side n given).find? p = some (.parameter v)) :
    n.parameters.find? (p ∘ Source.parameter) = some v := by
  rcases find?_own rfl h with h | h
  · rw [List.find?_map] at h
    obtain ⟨u, hu, he⟩ := Option.map_eq_some_iff.mp h
    exact Source.parameter.inj he ▸ hu
  · obtain ⟨u, -, he⟩ := List.mem_map.mp (List.mem_of_find?_eq_some h)
    cases he

theorem find?_localVariable {p : Source → Bool} (h : (sources ts side n given).find? p = some (.localVariable v)) :
    n.locals.find? (p ∘ Source.localVariable) = some v := by
  rcases find?_own rfl h with h | h
  · obtain ⟨u, -, he⟩ := List.mem_map.mp (List.mem_of_find?_eq_some h)
    cases he
  · rw [List.find?_map] at h
    obtain ⟨u, hu, he⟩ := Option.map_eq_some_iff.mp h
    exact Source.localVariable.inj he ▸ hu

/-! ## Types -/

/-- What a name means in a procedure, though a candidate that is passed under this name is not for it. -/
inductive Mistaken (n : Node) (given : Option Text) (c : Candidate) (v : Variable) : Prop where
  /-- It is declared under a name that is offered anyway. -/
  | fixed (hc : c.reason ∈ [Candidate.handledReason, "current record", "previous record"]) (hv : v ∈ n.inScope)
  /-- It is a local with the name of a parameter. -/
  | parameter (hc : c.reason = "parameter") (hv : v ∈ n.locals)
  /-- It is a local or a parameter with the name of the return value. -/
  | returned (hc : c.reason = "return value") (hv : v ∈ n.locals ++ n.parameters)
  /-- It is a record with the name that the return value was given. -/
  | given (hg : given = some c.argument) (hr : c.argument.sameName "Rec" ∨ c.argument.sameName "xRec")

/-- A candidate has the type of what is passed for it: of the member that the final `exit` returns, or of what a
name means. -/
inductive Typed (ts : Trees) (n : Node) (given : Option Text) (c : Candidate) : Prop where
  | member {e : Node} {a : Argument} (he : finalExpression? n = some e)
      (hk : e.kind = NodeKind.memberAccessExpression) (ha : ts.argument? n e = some a) (hc : c.argument = e.text)
      (ht : c.parameter.type = a.parameter.type)
  | name (h : ∀ v, ts.lookup? n c.argument = some v → c.parameter.type = v.type ∨ Mistaken n given c v)

/-- A candidate for what a name means has its type. -/
theorem typed_of_lookup? (h : ∀ w, ts.lookup? n c.argument = some w → c.parameter.type = w.type) :
    Typed ts n given c :=
  .name fun w hw => .inl (h w hw)

/-- A record that is offered is what its name means, unless something is declared under it. -/
theorem typed_record {type : Text} (ht : n.object?.bind ts.recordType? = some type)
    (hc : c.reason ∈ [Candidate.handledReason, "current record", "previous record"])
    (hct : c.parameter.type = type) : Typed ts n given c := by
  refine .name fun w hw => ?_
  rcases Trees.lookup?_cases hw with hd | ⟨-, -, hr⟩
  · exact .inr (.fixed hc (List.mem_of_find?_eq_some hd))
  · exact .inl (hct.trans (Option.some.inj (ht.symm.trans hr)))

/-- What is offered for what the final `exit` returns has its type. -/
theorem typed_exit {e : Text} (h : finalExit? ts n = some (v, e)) (config : Config) :
    Typed ts n given ((Source.exit v e).candidate config n) := by
  obtain ⟨x, hx, h⟩ := Option.bind_eq_some_iff.mp h
  split at h
  · obtain ⟨w, hw, he⟩ := Option.map_eq_some_iff.mp h
    obtain ⟨rfl, rfl⟩ := Prod.mk.inj he
    refine typed_of_lookup? fun u hu => ?_
    rw [Option.some.inj (hu.symm.trans hw)]
    rfl
  · rename_i hk
    obtain ⟨a, ha, he⟩ := Option.map_eq_some_iff.mp h
    obtain ⟨rfl, rfl⟩ := Prod.mk.inj he
    exact .member hx hk ha (Trees.expression_of_member hk ha) rfl
  · cases h

/-- The return value has its type, unless its name means something else. -/
theorem typed_returned {picked : Bool} (h : returned? side n given = some v)
    (hg : ∀ g ∈ given, ∀ u ∈ n.inScope, u.name.sameName g = false) (config : Config) :
    Typed ts n given ((Source.returned v picked).candidate config n) := by
  obtain ⟨r, hr, hv⟩ : ∃ r, n.returnValue? = some r ∧ r.toVariable? given = some v := by
    rw [returned?] at h
    split at h
    · exact Option.bind_eq_some_iff.mp h
    · cases h
  refine .name fun w hw => ?_
  have hw : ts.lookup? n v.name = some w := hw
  cases given with
  | some g =>
      obtain rfl : g = v.name := Option.some.inj (ReturnValue.eq_of_toVariable? hv).1
      rcases Trees.lookup?_cases hw with hd | ⟨-, hrec, -⟩
      · have hs := List.find?_some hd
        exact absurd hs (by rw [hg _ rfl w (List.mem_of_find?_eq_some hd)]; decide)
      · exact .inr (.given rfl hrec)
  | none =>
      have hd : n.inScope = (n.locals ++ n.parameters) ++ ([v] ++ (n.object?.map (·.globals)).getD []) := by
        rw [Node.inScope, hr, Option.bind_some, hv, List.append_assoc]
        rfl
      rw [Trees.lookup?, ← Node.inScope, hd, List.find?_append] at hw
      cases hf : (n.locals ++ n.parameters).find? (·.name.sameName v.name) with
      | some u =>
          rw [hf] at hw
          obtain rfl := Option.some.inj hw
          exact .inr (.returned rfl (List.mem_of_find?_eq_some hf))
      | none =>
          rw [hf, List.singleton_append, List.find?_cons_of_pos (p := fun u : Variable => u.name.sameName v.name)
            (Text.sameName_refl v.name)] at hw
          obtain rfl := Option.some.inj hw
          exact .inl rfl

/-- A parameter has its type, unless a local has its name. -/
theorem typed_parameter (h : n.parameters.find? (·.name.sameName v.name) = some v) (config : Config) :
    Typed ts n given ((Source.parameter v).candidate config n) := by
  refine .name fun w hw => ?_
  have hw : ts.lookup? n v.name = some w := hw
  rw [Trees.lookup?, List.append_assoc, List.append_assoc, List.find?_append] at hw
  cases hf : n.locals.find? (·.name.sameName v.name) with
  | some u =>
      rw [hf] at hw
      obtain rfl := Option.some.inj hw
      exact .inr (.parameter rfl (List.mem_of_find?_eq_some hf))
  | none =>
      rw [hf, Option.none_or, List.find?_append, h] at hw
      obtain rfl := Option.some.inj hw
      exact .inl rfl

/-- A local has its type. -/
theorem typed_localVariable (h : n.locals.find? (·.name.sameName v.name) = some v) (config : Config) :
    Typed ts n given ((Source.localVariable v).candidate config n) := by
  refine typed_of_lookup? fun w hw => ?_
  have hw : ts.lookup? n v.name = some w := hw
  rw [Trees.lookup?, List.append_assoc, List.append_assoc, List.find?_append, h] at hw
  obtain rfl := Option.some.inj hw
  rfl

/-- Every candidate of a plan has the type of what is passed for it. -/
theorem Planned.typed {chosen : List Nat} {plan : EventPlan} (hp : Planned ctx side n chosen plan)
    (hg : ∀ g ∈ plan.returnName, ∀ u ∈ n.inScope, u.name.sameName g = false) :
    ∀ c ∈ plan.parameters, Typed ctx.workspace.trees n plan.returnName c := by
  intro c hc
  obtain ⟨s, hs, rfl, -⟩ := hp.reference c hc
  have hst := stands_sources (List.mem_of_find?_eq_some hs)
  cases s with
  | handled =>
      refine .name fun w hw => ?_
      rcases Trees.lookup?_cases hw with hd | ⟨-, hrec, -⟩
      · exact .inr (.fixed (List.mem_cons_self ..) (List.mem_of_find?_eq_some hd))
      · have hrec : Text.sameName Candidate.handledName "Rec" ∨ Text.sameName Candidate.handledName "xRec" := hrec
        exact absurd hrec (by decide)
  | returned v picked => exact typed_returned hst hg _
  | exit v e => exact typed_exit hst _
  | record type => exact typed_record hst (by simp [Source.candidate, Candidate.ofVariable, Candidate.make]) rfl
  | previous type => exact typed_record hst (by simp [Source.candidate, Candidate.ofVariable, Candidate.make]) rfl
  | parameter v =>
      refine typed_parameter (find?_of_imp (find?_parameter hs) (fun u hu => ?_) (Text.sameName_refl v.name)) _
      exact beq_iff_eq.mpr (Text.lowercase_eq_of_sameName hu)
  | localVariable v =>
      refine typed_localVariable (find?_of_imp (find?_localVariable hs) (fun u hu => ?_) (Text.sameName_refl v.name)) _
      exact beq_iff_eq.mpr (Text.lowercase_eq_of_sameName hu)

/-- Whenever a plan is made, every parameter of it has the type of what is passed for it. -/
theorem make_typed (hw : ctx.workspace.Numbered) (hk : n.kind.isMethod) {p : Progress}
    (hp : p.source.Coherent ctx.workspace) {plan : EventPlan}
    (h : ((make ctx side n).run.run p).1 = .ok plan) :
    ∀ c ∈ plan.parameters, Typed ctx.workspace.trees n plan.returnName c := by
  rcases make_planned hw hk hp with ⟨plan', d, chosen, hm, hg, -, hpl⟩ | ⟨he, -⟩
  · obtain rfl := Except.ok.inj (h.symm.trans hm)
    exact hpl.typed (not_sameName_givenName hg)
  · cases h.symm.trans he

/-- A parameter `Rec` of a procedure of a table is not offered, because a record of this name is: the event gets a
record, and an integer is passed for it. -/
theorem make_shadowed :
    let text : Text := "table 1 T \x7b procedure P(Rec: Integer) begin end; \x7d"
    let w : Workspace := Workspace.empty.add "a.al" text
    let c : Candidate := ⟨"current record", (Variable.plain "Rec" "Record T").withReference true, "Rec", false, 60⟩
    (parse text).ok ∧ ∃ n ∈ (parse text).nodes, n.name = some ("P" : Text) ∧
      ((make ⟨w, .standard, .unknown⟩ .after n).run.run ⟨.empty, .start (.scripted [some [0]] [])⟩).1 =
        .ok ⟨[c], none⟩ ∧
      (w.trees.lookup? n c.argument).map (·.type) = some ("Integer" : Text) := by
  intro text w c
  have h : (parse text).ok ∧ ∃ n ∈ (parse text).nodes, n.name = some ("P" : Text) ∧
      ((make ⟨w, .standard, .unknown⟩ .after n).run.run
        ⟨.empty, .start (.scripted [some [0]] [])⟩).1.toOption = some ⟨[c], none⟩ ∧
      (w.trees.lookup? n c.argument).map (·.type) = some ("Integer" : Text) := by decide +kernel
  obtain ⟨h, n, hn, hp, hr, hl⟩ := h
  exact ⟨h, n, hn, hp, Extraction.eq_ok_of_toOption hr, hl⟩

end EventPlan

end AlRefactor
