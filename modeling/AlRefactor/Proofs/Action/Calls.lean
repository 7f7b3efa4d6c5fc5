import AlRefactor.Proofs.Action.Offers

/-!
# Which calls ask for parameters

Parameters are offered for a call just if one of the procedures that it could mean has fewer of them than
the call has arguments, and takes the arguments that it has parameters for.
-/

namespace AlRefactor

open SyntaxTree Refactoring

namespace CallTarget

variable {exactOnly : Bool} {methods : List Node} {arguments : List Argument} {config : Config} {m : Node}

/-- A procedure takes the arguments that it has parameters for, and there are more of them. -/
def Lacks (exactOnly : Bool) (arguments : List Argument) (m : Node) : Prop :=
  m.parameters.length < arguments.length ∧ (score? exactOnly m.parameters arguments).isSome

theorem best?_eq_none_iff {es : List (Node × Score)} : best? es = none ↔ es = [] := by
  cases es with
  | nil => exact iff_of_true rfl rfl
  | cons e es =>
      refine iff_of_false (fun h => ?_) (List.cons_ne_nil e es)
      rw [best?] at h
      split at h
      · cases h
      · split at h <;> cases h

/-- The candidates are the procedures that lack parameters. -/
theorem exists_mem_candidates : (∃ s, (m, s) ∈ candidates exactOnly methods arguments) ↔
    m ∈ methods ∧ Lacks exactOnly arguments m := by
  constructor
  · rintro ⟨s, h⟩
    obtain ⟨a, ha, h⟩ := List.mem_filterMap.mp h
    dsimp only at h
    split at h
    · obtain ⟨r, hr, h⟩ := Option.map_eq_some_iff.mp h
      cases h
      exact ⟨ha, ‹_›, by rw [hr]; rfl⟩
    · cases h
  · rintro ⟨hm, hlt, hs⟩
    obtain ⟨s, hs⟩ := Option.isSome_iff_exists.mp hs
    exact ⟨s, List.mem_filterMap.mpr ⟨m, hm, by dsimp only; rw [if_pos hlt, hs]; rfl⟩⟩

theorem candidates_eq_nil_iff : candidates exactOnly methods arguments = [] ↔
    ∀ m ∈ methods, ¬ Lacks exactOnly arguments m := by
  rw [List.eq_nil_iff_forall_not_mem]
  constructor
  · intro h m hm hl
    obtain ⟨s, hs⟩ := exists_mem_candidates.mpr ⟨hm, hl⟩
    exact h _ hs
  · rintro h ⟨m, s⟩ hs
    obtain ⟨hm, hl⟩ := exists_mem_candidates.mp ⟨s, hs⟩
    exact h m hm hl

/-- A procedure is found just if one lacks parameters, and one that is found does. -/
theorem find?_lacks (hm : ∀ m ∈ methods, m.kind.isMethod) :
    ∃ found, find? exactOnly methods arguments config = .ok found ∧
      (found = none ↔ ∀ m ∈ methods, ¬ Lacks exactOnly arguments m) ∧
      ∀ c ∈ found, c.method ∈ methods ∧ Lacks exactOnly arguments c.method := by
  rw [find?, ← candidates_eq_nil_iff]
  split
  · rename_i hb
    exact ⟨none, rfl, iff_of_true rfl (best?_eq_none_iff.mp hb), fun c hc => by cases hc⟩
  · rename_i m s hb
    obtain ⟨hmm, hl⟩ := exists_mem_candidates.mp ⟨s, best?_mem hb⟩
    have hr : m.roleOf = .ok m.role := if_pos (hm m hmm)
    rw [hr]
    refine ⟨_, rfl, iff_of_false (Option.some_ne_none _) fun hn => ?_, fun c hc => ?_⟩
    · rw [hn] at hb
      cases hb
    · obtain rfl := Option.some.inj hc
      exact ⟨hmm, hl⟩

end CallTarget

namespace CallFix

variable {ctx : Context} {d : Document} {span : Span} {call : Node}

/-- What a call means as far as its text tells: the arguments, the procedures of the called name, and whether
they stand in another object. -/
def Means (ts : Trees) (document : Nat) (call : Node) (arguments : List Argument) (methods : List Node)
    (elsewhere : Bool) : Prop :=
  ∃ caller target object name, call.method? = some caller ∧ arguments? ts caller call = some arguments ∧
    callee? ts document caller call = some (target, object, name, elsewhere) ∧
    methods = object.proceduresNamed name

variable {arguments : List Argument} {methods : List Node} {elsewhere : Bool}

/-- The procedure that a call would reach with further parameters is one that lacks them, if there is one. -/
theorem target?_lacks (ctx : Context) {ts : Trees} {document : Nat}
    (h : Means ts document call arguments methods elsewhere) :
    ∃ found, target? ctx ts document call = .ok found ∧
      (found = none ↔ ∀ m ∈ methods, ¬ CallTarget.Lacks elsewhere arguments m) ∧
      ∀ p ∈ found, p.2.method ∈ methods ∧ CallTarget.Lacks elsewhere arguments p.2.method := by
  obtain ⟨caller, target, object, name, hm, ha, hf, rfl⟩ := h
  have hk : ∀ m ∈ object.proceduresNamed name, m.kind.isMethod := fun m hm => by
    rw [(Node.mem_proceduresNamed hm).2]
    rfl
  obtain ⟨found, hr, hn, hl⟩ := @CallTarget.find?_lacks elsewhere _ arguments ctx.config hk
  refine ⟨found.map fun m => (target, m), ?_, by rw [Option.map_eq_none_iff, hn], fun p hp => ?_⟩
  · simp only [target?, hm, ha, hf, hr, Option.bind_eq_bind, Option.bind_some]
    rfl
  · obtain ⟨c, hc, rfl⟩ := Option.map_eq_some_iff.mp hp
    exact hl c hc

/-- For a call whose arguments are known nothing is offered unless one of the procedures that it could mean
lacks parameters. What is offered is to give them to such a procedure. -/
theorem actions_lack (hw : ctx.workspace.Numbered) (hd : d ∈ ctx.workspace.documents)
    (hc : callAt? (parse d.text) span = some call)
    (hm : Means ctx.workspace.trees d.id call arguments methods elsewhere) :
    Meets ctx.workspace False False (provider.actions ctx d.id span) fun actions =>
      ((∀ m ∈ methods, ¬ CallTarget.Lacks elsewhere arguments m) → actions = []) ∧
        ∀ a ∈ actions, ∃ target, ∃ c : CallTarget, a ∈ actionsFor target c ∧ c.method ∈ methods ∧
          CallTarget.Lacks elsewhere arguments c.method ∧ c.method.role.acceptsParameters := by
  obtain ⟨found, hf, hn, hl⟩ := target?_lacks ctx hm
  refine (Context.meets_tree? hw hd).bind fun t ht => ?_
  subst ht
  dsimp only
  rw [hc]
  refine (Context.meets_trees hw).bind fun ts hts => ?_
  subst hts
  refine (meets_ofFault hf (Q := (· = found)) rfl).bind fun r hr => ?_
  subst hr
  cases r with
  | none => exact meets_pure ⟨fun _ => rfl, fun _ hn => (List.not_mem_nil hn).elim⟩
  | some p =>
      obtain ⟨hp, hlack⟩ := hl p rfl
      refine meets_pure ⟨fun hno => absurd hlack (hno _ hp), fun a ha => ?_⟩
      split at ha
      · exact ⟨p.1, p.2, ha, hp, hlack, ‹_›⟩
      · cases ha

/-- Whether another procedure takes all arguments is not looked at: of two procedures `P` one takes both
arguments of `P(1, 2)`, and yet the other one is to get a second parameter. -/
theorem target?_beside_fitting :
    let text : Text := "codeunit 1 A \x7b procedure P(x: Integer) begin end; " ++
      "procedure P(x: Integer; y: Integer) begin end; procedure Q() begin P(1, 2); end; \x7d"
    let ctx : Context := ⟨.add .empty "doc0.al" text, .standard, .unknown⟩
    (parse text).ok ∧ ∃ call, callAt? (parse text) ⟨117, 117⟩ = some call ∧
      ∃ arguments methods, Means ctx.workspace.trees 0 call arguments methods false ∧
        (∃ m ∈ methods, m.parameters.length = arguments.length ∧
          (score? false m.parameters arguments).isSome) ∧
        ∃ c, target? ctx ctx.workspace.trees 0 call = .ok (some (0, c)) ∧ c.method.role.acceptsParameters := by
  intro text ctx
  have h : (parse text).ok ∧ (callAt? (parse text) ⟨117, 117⟩).any fun call =>
      (call.method?.any fun caller => (arguments? ctx.workspace.trees caller call).any fun arguments =>
        (callee? ctx.workspace.trees 0 caller call).any fun (_, object, name, elsewhere) => !elsewhere &&
          (object.proceduresNamed name).any fun m =>
            m.parameters.length == arguments.length && (score? false m.parameters arguments).isSome) &&
      (target? ctx ctx.workspace.trees 0 call).toOption.join.any fun p =>
        p.1 == 0 && p.2.method.role.acceptsParameters := by decide +kernel
  simp only [Option.any_eq_true, Bool.and_eq_true, List.any_eq_true, beq_iff_eq, Bool.not_eq_true',
    Prod.exists] at h
  obtain ⟨hok, call, hc, ⟨caller, hm, arguments, ha, target, object, name, elsewhere, hf, rfl, hfit⟩,
    d, c, hr, rfl, hp⟩ := h
  exact ⟨hok, call, hc, arguments, _, ⟨caller, target, object, name, hm, ha, hf, rfl⟩, hfit, c,
    Extraction.eq_ok_of_toOption (Option.join_eq_some_iff.mp hr), hp⟩

end CallFix

end AlRefactor
