import AlRefactor.Proofs.Action.Publisher
import AlRefactor.Proofs.Session.Refactoring
import AlRefactor.Proofs.Text.Lowercase

/-!
# The parameters of an event

Parameters are offered from several sources, of one name only the first; the user chooses among them,
and the chosen ones are ordered by rank. A plan is described by the sources it was made from and by
what was chosen. It is made unless the user cancels a question on the way.
-/

namespace AlRefactor

open SyntaxTree

variable {n : Node} {ctx : Context} {side : Side} {c : Candidate} {cs : List Candidate}

/-! ## Offered candidates -/

namespace Candidate

theorem not_sameName_of_key {c d : Candidate} (h : c.key ≠ d.key) :
    c.parameter.name.sameName d.parameter.name = false :=
  Bool.eq_false_iff.mpr fun hs => h (Text.lowercase_eq_of_sameName hs)

theorem distinct_append (cs : List Candidate) (c : Candidate) :
    distinct (cs ++ [c]) =
      if (distinct cs).any (·.key == c.key) then distinct cs else distinct cs ++ [c] := by
  rw [distinct, List.foldl_append]
  rfl

theorem any_key_distinct (cs : List Candidate) (k : Text) :
    (distinct cs).any (·.key == k) = cs.any (·.key == k) := by
  induction cs using List.reverseRecOn with
  | nil => rfl
  | append_singleton cs c ih =>
      rw [distinct_append, List.any_append, List.any_cons, List.any_nil, Bool.or_false]
      split
      · rename_i hc
        by_cases hk : c.key == k
        · rw [beq_iff_eq.mp hk, ih] at hc
          rw [ih, hc, Bool.true_or]
        · rw [ih, Bool.eq_false_iff.mpr hk, Bool.or_false]
      · rw [List.any_append, ih, List.any_cons, List.any_nil, Bool.or_false]

/-- Of several candidates with one name the first is offered. -/
theorem mem_distinct : c ∈ distinct cs ↔ cs.find? (·.key == c.key) = some c := by
  induction cs using List.reverseRecOn with
  | nil => simp [distinct]
  | append_singleton cs e ih =>
      rw [distinct_append, any_key_distinct, List.find?_append]
      cases hf : cs.find? (·.key == c.key) with
      | some d =>
          rw [hf] at ih
          have hd : cs.any (·.key == c.key) :=
            List.any_eq_true.mpr ⟨d, List.mem_of_find?_eq_some hf, by simpa using List.find?_some hf⟩
          rw [Option.some_or, ← ih]
          split
          · rfl
          · rename_i he
            -- another candidate of that name stands further in front
            have hne : c ≠ e := fun hce => he (hce ▸ hd)
            simp [hne]
      | none =>
          rw [hf] at ih
          have hn : c ∉ distinct cs := fun hc => by cases ih.mp hc
          have hk : cs.any (·.key == c.key) = false := by
            simpa using List.find?_eq_none.mp hf
          rw [Option.none_or, List.find?_singleton]
          split
          · rename_i he
            have hne : ¬ e.key == c.key := fun hb => by
              rw [beq_iff_eq.mp hb, hk] at he
              cases he
            simp [hn, hne]
          · simp only [List.mem_append, hn, false_or, List.mem_singleton]
            split
            · exact ⟨fun h => by rw [h], fun h => (Option.some.inj h).symm⟩
            · rename_i hb
              exact ⟨fun h => absurd (by rw [h]; exact beq_self_eq_true _) hb, nofun⟩

end Candidate

/-! ## Chosen candidates -/

namespace EventPlan

variable {chosen : List Nat}

theorem mem_select : c ∈ select cs chosen ↔ ∃ i ∈ chosen, cs[i]? = some c := by
  rw [select, (List.mergeSort_perm ..).mem_iff, List.mem_map]
  constructor
  · rintro ⟨⟨_, i⟩, hm, rfl⟩
    obtain ⟨hm, hi⟩ := List.mem_filter.mp hm
    exact ⟨i, by simpa using hi, List.mk_mem_zipIdx_iff_getElem?.mp hm⟩
  · rintro ⟨i, hi, hc⟩
    exact ⟨(c, i), List.mem_filter.mpr ⟨List.mk_mem_zipIdx_iff_getElem?.mpr hc, by simpa using hi⟩, rfl⟩

theorem select_ordered (cs : List Candidate) (chosen : List Nat) :
    (select cs chosen).Pairwise fun a b => b.rank ≤ a.rank := by
  refine (List.pairwise_mergeSort (fun a b c hab hbc => ?_) (fun a b => ?_) _).imp
    fun h => of_decide_eq_true h
  · simp only [decide_eq_true_eq] at *
    omega
  · simp only [Bool.or_eq_true, decide_eq_true_eq]
    omega

/-- Candidates of one rank stay in the order in which they are offered. -/
theorem select_stable (cs : List Candidate) (chosen : List Nat) (rank : Nat) :
    ((select cs chosen).filter (·.rank = rank)).Sublist cs := by
  have hs : (cs.zipIdx.map (·.1)).Sublist cs := by
    rw [List.zipIdx_map_fst]
  rw [select, filter_mergeSort]
  · exact List.filter_sublist.trans ((List.filter_sublist.map _).trans hs)
  · intro a b c hab hbc
    simp only [decide_eq_true_eq] at *
    omega
  · intro a b
    simp only [Bool.or_eq_true, decide_eq_true_eq]
    omega
  · intro a b ha hb
    simp only [decide_eq_true_eq] at *
    omega

/-! ## Sources -/

/-- Where a candidate comes from. -/
inductive Source where
  | handled
  | returned (v : Variable) (picked : Bool)
  | exit (v : Variable) (argument : Text)
  | record (type : Text)
  | previous (type : Text)
  | parameter (v : Variable)
  | localVariable (v : Variable)

namespace Source

/-- The parameter is passed by reference without any setting that asks for it. -/
def asks : Source → Bool
  | .handled | .returned _ _ | .exit _ _ | .record _ => true
  | .parameter v => v.byReference
  | .previous _ | .localVariable _ => false

def candidate (config : Config) (n : Node) : Source → Candidate
  | .handled =>
    .ofVariable config (.plain Candidate.handledName "Boolean") Candidate.handledReason true true 100
  | .returned v picked => .ofVariable config v "return value" true picked 90
  | .exit v argument => .make config v argument (exitReason n v) true true 100
  | .record type => .ofVariable config (.plain "Rec" type) "current record" true false 60
  | .previous type => .ofVariable config (.plain "xRec" type) "previous record" false false 60
  | .parameter v => .ofVariable config v "parameter" false true 80
  | .localVariable v => .ofVariable config v "local variable" false false 70

end Source

/-- What the `exit` at the end of a body returns. -/
def finalExpression? (n : Node) : Option Node := do
  let body ← n.child? NodeKind.block
  let last ← body.childNodes.getLast?
  if last.is NodeKind.exitStatement then last.childNodes.head? else none

/-- It as a variable and the expression to pass for it. -/
def finalExit? (ts : Trees) (n : Node) : Option (Variable × Text) := do
  let e ← finalExpression? n
  match e.kind with
  | .node .identifierName => (ts.lookup? n e.text).map fun v => (v, e.text)
  | .node .memberAccessExpression => (ts.argument? n e).map fun a => (a.parameter, a.expression)
  | _ => none

/-- The return value is offered on this side. -/
def offersReturn (side : Side) (n : Node) : Bool :=
  side == .before || (n.returnValue?.bind (·.name)).isSome || !exitsWithValue n

/-- The return value under its name, or under the one that it is given. -/
def returned? (side : Side) (n : Node) (name : Option Text) : Option Variable :=
  if offersReturn side n then n.returnValue?.bind (·.toVariable? name) else none

def sideSources (ts : Trees) (side : Side) (n : Node) (name : Option Text) : List Source :=
  match side with
  | .before => .handled :: ((returned? side n name).map (.returned · true)).toList
  | .after =>
    let exit := finalExit? ts n
    (exit.map fun (v, e) => .exit v e).toList ++
      ((returned? side n name).map (.returned · exit.isNone)).toList

def recordSources (ts : Trees) (n : Node) : List Source :=
  match n.object?.bind ts.recordType? with
  | none => []
  | some type => [.record type, .previous type]

/-- All sources in the order in which they offer their candidates. -/
def sources (ts : Trees) (side : Side) (n : Node) (name : Option Text) : List Source :=
  sideSources ts side n name ++ recordSources ts n ++ n.parameters.map .parameter ++
    n.locals.map .localVariable

def offered (ctx : Context) (side : Side) (n : Node) (name : Option Text) : List Candidate :=
  Candidate.distinct ((sources ctx.workspace.trees side n name).map (·.candidate ctx.config n))

end EventPlan

/-! ## Computations and their questions -/

/-- A talk with the user, without a result if the user cancels. -/
abbrev Talk := OptionT (StateM Dialogue)

namespace Talk

variable {α β : Type} {t : Talk α} {u : α → Talk β} {a : α} {d e : Dialogue}

theorem run_bind_some (h : t.run.run d = (some a, e)) : (t >>= u).run.run d = (u a).run.run e := by
  rw [OptionT.run_bind, Option.elimM, StateT.run_bind, h]
  rfl

theorem run_bind_none (h : t.run.run d = (none, e)) : (t >>= u).run.run d = (none, e) := by
  rw [OptionT.run_bind, Option.elimM, StateT.run_bind, h]
  rfl

end Talk

namespace Refactoring

variable {α β : Type} {w : Workspace} {x : Refactoring α} {f : α → Refactoring β} {t : Talk α}
  {u : α → Talk β} {a : α}

/-- How a talk ends as a refactoring. -/
def outcome : Option α → Except Failure α
  | some a => .ok a
  | none => .error (.refused .cancelled)

/-- Apart from looking at the trees of a workspace, a computation is this talk. -/
def Follows (w : Workspace) (x : Refactoring α) (t : Talk α) : Prop :=
  ∀ p : Progress, p.source.Coherent w →
    ∃ s : TreeSource, s.Coherent w ∧
      x.run.run p = (outcome (t.run.run p.dialogue).1, ⟨s, (t.run.run p.dialogue).2⟩)

theorem follows_pure (w : Workspace) (a : α) : Follows w (pure a) (pure a) :=
  fun p hp => ⟨p.source, hp, rfl⟩

/-- What follows a computation may depend on what its talk got instead of on its result. -/
theorem Follows.bind_map {γ : Type} {v : Talk γ} {g : γ → α} {u : γ → Talk β}
    (hx : Follows w x (v >>= fun c => pure (g c))) (hf : ∀ c, Follows w (f (g c)) (u c)) :
    Follows w (x >>= f) (v >>= u) := by
  intro p hp
  obtain ⟨s, hs, hr⟩ := hx p hp
  rw [OptionT.run_bind, Option.elimM, StateT.run_bind] at hr
  rw [ExceptT.run_bind, StateT.run_bind, hr, OptionT.run_bind, Option.elimM, StateT.run_bind]
  generalize v.run.run p.dialogue = r
  obtain ⟨_ | c, d⟩ := r
  · exact ⟨s, hs, rfl⟩
  · exact hf c ⟨s, d⟩ hs

theorem Follows.bind (hx : Follows w x t) (hf : ∀ a, Follows w (f a) (u a)) :
    Follows w (x >>= f) (t >>= u) := by
  refine Follows.bind_map (g := id) ?_ hf
  rw [show (t >>= fun a => pure (id a)) = t from bind_pure t]
  exact hx

/-- A computation that asks nothing has its result at once. -/
theorem Follows.bind_pure (hx : Follows w x (pure a)) {v : Talk β} (hf : Follows w (f a) v) :
    Follows w (x >>= f) v := by
  intro p hp
  obtain ⟨s, hs, hr⟩ := hx p hp
  obtain ⟨r, hc, hq⟩ := hf ⟨s, p.dialogue⟩ hs
  refine ⟨r, hc, ?_⟩
  rw [ExceptT.run_bind, StateT.run_bind, hr]
  exact hq

theorem follows_trees {ctx : Context} (hw : ctx.workspace.Numbered) :
    Follows ctx.workspace ctx.trees (pure ctx.workspace.trees) := by
  intro p hp
  obtain ⟨ht, hs⟩ := hp.trees fun d hd => hw.get? hd
  refine ⟨_, hs, ?_⟩
  rw [Workspace.trees, ← ht]
  rfl

theorem follows_talk (w : Workspace) (f : Dialogue → Option Text × Dialogue) :
    Follows w (talk f) (OptionT.mk f) := by
  rintro ⟨s, d⟩ hs
  refine ⟨s, hs, ?_⟩
  -- Only what is said in this dialogue counts.
  have ht : ∀ x, f d = x → (talk f).run.run ⟨s, d⟩ = (talk fun _ => x).run.run ⟨s, d⟩ := by
    rintro _ rfl
    rfl
  change _ = (outcome (f d).1, Progress.mk s (f d).2)
  rcases hx : f d with ⟨_ | t, e⟩ <;> exact ht _ hx

end Refactoring

namespace EventPlan

open Refactoring

/-! ## Questions -/

/-- The return value has to be given a name. -/
def asksName (side : Side) (n : Node) : Bool :=
  offersReturn side n && (n.returnValue?.map (·.name.isNone)).getD false

/-- The name the return value is given, if it needs one. -/
def givenName (side : Side) (n : Node) : Talk (Option Text) :=
  if asksName side n then
    some <$> OptionT.mk fun d : Dialogue => d.askForReturnName (TakenNames.ofMethod n)
  else pure none

/-- The numbers of the chosen candidates. -/
def answer (cs : List Candidate) : Talk (List Nat) :=
  OptionT.mk fun d : Dialogue =>
    if d.isSilent then (some ((cs.zipIdx.filter fun (c, _) => c.picked).map (·.2)), d)
    else d.pick (cs.map (·.item))

variable (hw : ctx.workspace.Numbered)

include hw

theorem follows_finalResult? :
    Follows ctx.workspace (finalResult? ctx n) (pure (finalExit? ctx.workspace.trees n)) := by
  rw [finalResult?, finalExit?, ← finalExpression?]
  cases finalExpression? n with
  | none => exact follows_pure _ _
  | some e =>
      rw [Option.bind_eq_bind, Option.bind_some]
      dsimp only
      generalize e.kind = k
      rcases k with k | k
      · exact follows_pure _ _
      · cases k
        case identifierName => exact (follows_trees hw).bind_pure (follows_pure _ _)
        case memberAccessExpression => exact (follows_trees hw).bind_pure (follows_pure _ _)
        all_goals exact follows_pure _ _

theorem follows_recordCandidates :
    Follows ctx.workspace (recordCandidates ctx n)
      (pure ((recordSources ctx.workspace.trees n).map (·.candidate ctx.config n))) := by
  rw [recordCandidates, recordSources]
  cases n.object? with
  | none => exact follows_pure _ _
  | some o =>
      refine (follows_trees hw).bind_pure ?_
      rw [Option.bind_some]
      cases ctx.workspace.trees.recordType? o with
      | none => exact follows_pure _ _
      | some type => exact follows_pure _ _

omit hw in
theorem follows_choose (w : Workspace) (cs : List Candidate) : Follows w (choose cs) (answer cs) := by
  rintro ⟨s, host, requests⟩ hs
  refine ⟨s, hs, ?_⟩
  cases host with
  | silent => rfl
  | scripted picks texts => rcases picks with _ | ⟨_ | chosen, picks⟩ <;> rfl

omit hw in
/-- A return value that is offered is a variable of the name it was given. -/
theorem follows_returnVariable? (w : Workspace) (side : Side) (h : offersReturn side n) :
    Follows w (returnVariable? n) (do
      let name ← givenName side n
      pure ((returned? side n name).map fun v => (v, name))) := by
  simp only [returned?, givenName, asksName, h, if_true, Bool.true_and]
  rw [returnVariable?]
  cases n.returnValue? with
  | none => exact follows_pure _ _
  | some r =>
      dsimp only
      cases hr : r.name with
      | some m =>
          simp only [hr, Option.isNone_some, Option.map_some, Option.getD_some, if_false,
            Bool.false_eq_true, Option.bind_some, pure_bind]
          exact follows_pure _ _
      | none =>
          simp only [hr, Option.isNone_none, Option.map_some, Option.getD_some, if_true,
            Option.bind_some, bind_map_left]
          exact (follows_talk w _).bind fun _ => follows_pure _ _

omit hw in
/-- A name is given exactly if one is asked for. -/
theorem givenName_bind_congr {α : Type} {f g : Option Text → Talk α}
    (h : ∀ name : Option Text, name.isSome = asksName side n → f name = g name) :
    (givenName side n >>= f) = givenName side n >>= g := by
  rw [givenName]
  split
  · rename_i ha
    rw [bind_map_left, bind_map_left]
    exact bind_congr fun a => h (some a) ha.symm
  · rename_i ha
    rw [pure_bind, pure_bind]
    exact h none (Bool.eq_false_iff.mpr ha).symm

omit hw in
theorem bind_returned? {name : Option Text} (h : name.isSome = asksName side n) :
    ((returned? side n name).map fun v => (v, name)).bind (·.2) = name := by
  cases name with
  | none => cases returned? side n none <;> rfl
  | some a =>
      obtain ⟨ho, hr⟩ := Bool.and_eq_true_iff.mp h.symm
      rw [returned?, if_pos ho]
      cases hv : n.returnValue? with
      | none => rw [hv] at hr; cases hr
      | some r => rfl

theorem follows_sideCandidates :
    Follows ctx.workspace (sideCandidates ctx side n) (do
      let name ← givenName side n
      pure ((sideSources ctx.workspace.trees side n name).map (·.candidate ctx.config n), name)) := by
  cases side with
  | before =>
      have h : Follows ctx.workspace (sideCandidates ctx .before n) _ :=
        (follows_returnVariable? _ .before rfl).bind fun _ => follows_pure _ _
      rw [bind_assoc] at h
      refine (congrArg (Follows ctx.workspace _) (givenName_bind_congr fun name hn => ?_)).mp h
      rw [pure_bind, bind_returned? hn, sideSources]
      cases returned? .before n name <;> rfl
  | after =>
      refine (follows_finalResult? hw).bind_pure ?_
      dsimp only
      split
      · rename_i ho
        have h := (follows_returnVariable? ctx.workspace .after ho).bind fun r =>
          follows_pure ctx.workspace (((finalExit? ctx.workspace.trees n).map fun x =>
            (Source.exit x.1 x.2).candidate ctx.config n).toList ++ (r.map fun x =>
              (Source.returned x.1 (finalExit? ctx.workspace.trees n).isNone).candidate
                ctx.config n).toList, r.bind (·.2))
        rw [bind_assoc] at h
        refine (congrArg (Follows ctx.workspace _) (givenName_bind_congr fun name hn => ?_)).mp h
        rw [pure_bind, bind_returned? hn, sideSources]
        dsimp only
        cases returned? .after n name <;> cases finalExit? ctx.workspace.trees n <;> rfl
      · rename_i ho
        have ho : offersReturn .after n = false := Bool.eq_false_iff.mpr ho
        rw [givenName, asksName, ho, Bool.false_and, if_neg Bool.false_ne_true, pure_bind,
          sideSources, returned?, ho, if_neg Bool.false_ne_true]
        dsimp only
        cases finalExit? ctx.workspace.trees n <;> exact follows_pure _ _

/-- Making a plan is a talk about the name of the return value and about what is offered. -/
theorem follows_make (hk : n.kind.isMethod) :
    Follows ctx.workspace (make ctx side n) (do
      let name ← givenName side n
      let chosen ← answer (offered ctx side n name)
      pure ⟨select (offered ctx side n name) chosen, name⟩) := by
  rw [make]
  dsimp only
  rw [hk, Bool.not_true, if_neg Bool.false_ne_true]
  refine (follows_sideCandidates hw).bind_map fun name => ?_
  have ho : offered ctx side n name = Candidate.distinct
      ((sideSources ctx.workspace.trees side n name).map (·.candidate ctx.config n) ++
        (recordSources ctx.workspace.trees n).map (·.candidate ctx.config n) ++
        n.parameters.map (fun v => .ofVariable ctx.config v "parameter" false true 80) ++
        n.locals.map fun v => .ofVariable ctx.config v "local variable" false false 70) := by
    rw [offered, sources, List.map_append, List.map_append, List.map_append, List.map_map,
      List.map_map]
    rfl
  rw [ho]
  exact (follows_recordCandidates hw).bind_pure
    ((follows_choose _ _).bind fun _ => follows_pure _ _)

omit hw

/-! ## Plans -/

/-- If nobody is asked, the preselected candidates are chosen. -/
theorem answer_silent {d : Dialogue} (h : d.isSilent) (cs : List Candidate) :
    ∃ chosen, (answer cs).run.run d = (some chosen, d) ∧
      ∀ i, i ∈ chosen ↔ ∃ c, cs[i]? = some c ∧ c.picked := by
  refine ⟨_, if_pos h, fun i => ?_⟩
  rw [List.mem_map]
  constructor
  · rintro ⟨⟨c, _⟩, hm, rfl⟩
    obtain ⟨hm, hp⟩ := List.mem_filter.mp hm
    exact ⟨c, List.mk_mem_zipIdx_iff_getElem?.mp hm, hp⟩
  · rintro ⟨c, hc, hp⟩
    exact ⟨(c, i), List.mem_filter.mpr ⟨List.mk_mem_zipIdx_iff_getElem?.mpr hc, hp⟩, rfl⟩

theorem byReference_of_mem_locals {v : Variable} (h : v ∈ n.locals) : v.byReference = false := by
  obtain ⟨m, _, rfl⟩ := List.mem_map.mp h
  rw [Node.toVariable, Variable.ownedBy?]
  cases m.owner? <;> rfl

theorem mem_locals_of_source {ts : Trees} {name : Option Text} {v : Variable}
    (h : .localVariable v ∈ sources ts side n name) : v ∈ n.locals := by
  have hs : .localVariable v ∉ sideSources ts side n name := by
    cases side <;> simp [sideSources]
  have hr : .localVariable v ∉ recordSources ts n := by
    rw [recordSources]
    split <;> simp
  simpa [sources, hs, hr] using h

/-- The parameter of a source is passed by reference if the source or a setting asks for it, unless
its type forbids it. -/
theorem byReference_candidate {ts : Trees} {name : Option Text} {s : Source}
    (h : s ∈ sources ts side n name) (config : Config) :
    (s.candidate config n).parameter.byReference = true ↔
      (s.candidate config n).parameter.canBeReference ∧
        (s.asks ∨ config.passesByReference (s.candidate config n).parameter.name ∨
          config.publisherHasVarParametersOnly) := by
  have hv (v : Variable) (argument reason : Text) (asks picked : Bool) (rank : Nat) :
      (Candidate.make config v argument reason asks picked rank).parameter.byReference = true ↔
        v.canBeReference ∧ ((asks ∨ v.byReference) ∨ config.passesByReference v.name ∨
          config.publisherHasVarParametersOnly) := by
    simp only [Candidate.make, Variable.withReference, Bool.and_eq_true, Bool.or_eq_true]
    tauto
  cases s with
  | handled | returned | exit | record | previous | parameter =>
      refine (hv ..).trans ?_
      simp [Source.asks, Source.candidate, Candidate.ofVariable, Candidate.make, Variable.withReference,
        Variable.plain, Variable.canBeReference, Variable.typeWord]
  | localVariable v =>
      refine (hv ..).trans ?_
      simp [Source.asks, Source.candidate, Candidate.ofVariable, Candidate.make, Variable.withReference,
        Variable.plain, Variable.canBeReference, Variable.typeWord,
        byReference_of_mem_locals (mem_locals_of_source h)]

/-- What a plan says about the chosen ones of the offered candidates. -/
structure Planned (ctx : Context) (side : Side) (n : Node) (chosen : List Nat) (plan : EventPlan) :
    Prop where
  names : plan.parameters.Pairwise fun c d => c.parameter.name.sameName d.parameter.name = false
  ordered : plan.parameters.Pairwise fun c d => d.rank ≤ c.rank
  stable : ∀ rank, (plan.parameters.filter (·.rank = rank)).Sublist
    (offered ctx side n plan.returnName)
  chosen : ∀ c, c ∈ plan.parameters ↔ ∃ i ∈ chosen, (offered ctx side n plan.returnName)[i]? = some c
  reference : ∀ c ∈ plan.parameters, ∃ s,
    (sources ctx.workspace.trees side n plan.returnName).find?
      (fun s => (s.candidate ctx.config n).key == c.key) = some s ∧ c = s.candidate ctx.config n ∧
    (c.parameter.byReference ↔ c.parameter.canBeReference ∧ (s.asks ∨
      ctx.config.passesByReference c.parameter.name ∨ ctx.config.publisherHasVarParametersOnly))

theorem planned_select (ctx : Context) (side : Side) (n : Node) (name : Option Text)
    (chosen : List Nat) :
    Planned ctx side n chosen ⟨select (offered ctx side n name) chosen, name⟩ := by
  refine ⟨(pairwise_select (Candidate.distinct_spec _)).imp Candidate.not_sameName_of_key,
    select_ordered _ _, select_stable _ _, fun c => mem_select, fun c hc => ?_⟩
  obtain ⟨i, _, hi⟩ := mem_select.mp hc
  have hf := Candidate.mem_distinct.mp (List.mem_of_getElem? hi)
  rw [List.find?_map] at hf
  obtain ⟨s, hs, rfl⟩ := Option.map_eq_some_iff.mp hf
  exact ⟨s, hs, rfl, byReference_candidate (List.mem_of_find?_eq_some hs) _⟩

/-- For every procedure and trigger either all questions are answered and a plan is made of the
answers, or one is cancelled and the plan with it. -/
theorem make_planned (hw : ctx.workspace.Numbered) (hk : n.kind.isMethod) {p : Progress}
    (hp : p.source.Coherent ctx.workspace) :
    (∃ plan d chosen, ((make ctx side n).run.run p).1 = .ok plan ∧
      (givenName side n).run.run p.dialogue = (some plan.returnName, d) ∧
      ((answer (offered ctx side n plan.returnName)).run.run d).1 = some chosen ∧
      Planned ctx side n chosen plan) ∨
    (((make ctx side n).run.run p).1 = .error (.refused .cancelled) ∧
      (((givenName side n).run.run p.dialogue).1 = none ∨
        ∃ name d, (givenName side n).run.run p.dialogue = (some name, d) ∧
          ((answer (offered ctx side n name)).run.run d).1 = none)) := by
  have hf : Follows ctx.workspace (make ctx side n) _ := follows_make hw hk
  obtain ⟨_, _, hr⟩ := hf p hp
  rw [hr]
  cases hg : (givenName side n).run.run p.dialogue with
  | mk name d =>
      cases name with
      | none =>
          rw [Talk.run_bind_none hg]
          exact .inr ⟨rfl, .inl rfl⟩
      | some name =>
          rw [Talk.run_bind_some hg]
          cases ha : (answer (offered ctx side n name)).run.run d with
          | mk chosen e =>
              cases chosen with
              | none =>
                  rw [Talk.run_bind_none ha]
                  exact .inr ⟨rfl, .inr ⟨name, d, rfl, by rw [ha]⟩⟩
              | some chosen =>
                  rw [Talk.run_bind_some ha]
                  exact .inl ⟨_, d, chosen, rfl, rfl, by rw [ha], planned_select ctx side n name chosen⟩

/-- The word of a type ends at a blank or a bracket only: a label whose text follows at once is not
taken for one, and is passed by reference. -/
theorem label_byReference :
    let text : Text := "codeunit 1 A \x7b procedure P() var x: Label'Hi'; begin end; \x7d"
    let config : Config := { Config.standard with publisherHasVarParametersOnly := true }
    let v : Variable := (Variable.plain "x" "Label'Hi'").withReference true
    (parse text).ok ∧ ∃ n ∈ (parse text).nodes, n.name = some ("P" : Text) ∧
      ((make ⟨.empty, config, .unknown⟩ .after n).run.run
        ⟨.empty, .start (.scripted [some [0]] [])⟩).1 =
          .ok ⟨[⟨"local variable", v, "x", false, 70⟩], none⟩ := by
  intro text config v
  have h : (parse text).ok ∧ ∃ n ∈ (parse text).nodes, n.name = some ("P" : Text) ∧
      ((make ⟨.empty, config, .unknown⟩ .after n).run.run
        ⟨.empty, .start (.scripted [some [0]] [])⟩).1.toOption =
          some ⟨[⟨"local variable", v, "x", false, 70⟩], none⟩ := by decide +kernel
  obtain ⟨h, n, hn, hp, hr⟩ := h
  exact ⟨h, n, hn, hp, Extraction.eq_ok_of_toOption hr⟩

end EventPlan

end AlRefactor
