import AlRefactor.Proofs.Grammar.DeclaringMembers
import AlRefactor.Proofs.Token.Joints

/-!
# Reading with further parameters

A list of parameters that is read without a problem is read with further ones behind the last of them, or
behind the bracket of an empty list. The type in front of them does not reach further than before, since a
semicolon ends it as a closing bracket does. The rest of the procedure is read as it was.
-/

namespace AlRefactor.Grammar

open Production AlRefactor.Tree

variable {c : Cursor} {n : Nat} {t q : Tree} {qs : List Tree} {rest : List Lexeme}

/-! ## Parameters -/

/-- What stands behind a parameter: a semicolon or a closing bracket. -/
def EndsParameter (ls : List Lexeme) : Prop :=
  ∃ l more, ls = l :: more ∧ (l.kind = .semicolon ∨ l.kind = .rParen)

theorem EndsParameter.alike {ls ms : List Lexeme} (hl : EndsParameter ls) (hm : EndsParameter ms) :
    Alike typeEnd ls ms := by
  obtain ⟨l, ls, rfl, hl⟩ := hl
  obtain ⟨m, ms, rfl, hm⟩ := hm
  simp only [Alike, List.head?_cons, Option.map_some, typeEnd, if_pos hl, if_pos hm]

/-- A tree that is read back as a parameter. -/
structure Passes (q : Tree) : Prop where
  reads {rest : List Lexeme} : EndsParameter rest → parameter.Reads [q] rest
  found (m : Nat) (more : List Lexeme) : atParameter ⟨m, q.leaves ++ more⟩ = true

theorem Passes.leaves_ne_nil (h : Passes q) : q.leaves ≠ [] := fun hn => by
  have := h.found 0 []
  rw [hn] at this
  cases this

/-- What another parameter may start with. -/
abbrev startsParameter (k : TokenKind) : Bool := k == .kwVar || k.isName

/-- The parameters behind the first one. -/
def furtherParameters : Production := whileAt (Continues .semicolon startsParameter) (take ++ parameter)

theorem parameters_eq : parameters = parameter ++ furtherParameters ++ takeThen .semicolon noParameter := rfl

/-- Trees with a semicolon in front of each. -/
def separated (qs : List Tree) : List Tree := qs.flatMap fun q => [.leaf Lexeme.semicolon, q]

theorem separated_cons (q : Tree) (qs : List Tree) :
    separated (q :: qs) = [.leaf Lexeme.semicolon, q] ++ separated qs := List.flatMap_cons

theorem endsParameter_separated (hr : EndsParameter rest) : EndsParameter (leavesOf (separated qs) ++ rest) := by
  cases qs with
  | nil => exact hr
  | cons q qs => exact ⟨Lexeme.semicolon, _, rfl, .inl rfl⟩

/-- Further parameters are read behind others, if no more follow. -/
theorem repeats_separated (hq : ∀ q ∈ qs, Passes q) (hr : EndsParameter rest)
    (hs : ∀ m, Continues .semicolon startsParameter ⟨m, rest⟩ = false) :
    Repeats (Continues .semicolon startsParameter) (take ++ parameter) (separated qs) rest := by
  induction qs with
  | nil => exact .nil hs
  | cons q qs ih =>
      obtain ⟨hq, hqs⟩ := List.forall_mem_cons.mp hq
      rw [separated_cons]
      refine .cons (fun m => ?_) (.take_append _ (hq.reads (endsParameter_separated hr))) (List.cons_ne_nil _ _)
        (ih hqs)
      have hf := hq.found 0 (leavesOf (separated qs) ++ rest)
      simpa [leavesOf, leaves, Continues, Cursor.isAt, Cursor.kind, Cursor.peek, Lexeme.semicolon, atParameter]
        using hf

theorem reads_noFurther {r : Lexeme} (hr : r.kind = .rParen) :
    (takeThen .semicolon noParameter).Reads [] (r :: rest) :=
  reads_nothing fun _ => by simp [Cursor.isAt, hr]

theorem not_continues_rParen {r : Lexeme} (hr : r.kind = .rParen) (m : Nat) :
    Continues .semicolon startsParameter ⟨m, r :: rest⟩ = false := by
  simp [Continues, Cursor.isAt, hr]

/-- Some parameters alone make a list. -/
theorem reads_parameters (hq : ∀ u ∈ q :: qs, Passes u) {r : Lexeme} (hr : r.kind = .rParen) :
    parameters.Reads (q :: separated qs) (r :: rest) := by
  obtain ⟨hq, hqs⟩ := List.forall_mem_cons.mp hq
  have he : EndsParameter (r :: rest) := ⟨r, rest, rfl, .inr hr⟩
  have hf := (hq.reads (endsParameter_separated he)).append
    (repeats_separated hqs he (not_continues_rParen hr)).reads
  exact hf.append_nothing (reads_noFurther hr)

/-! ## More of them -/

/-- What stands between the brackets of a list of parameters. -/
def listed : Production := choose atParameter parameters noParameter

theorem settled_atParameter : Settled (Alike id) atParameter := settled_of fun _ ls => by cases ls <;> rfl

/-- What follows the parameters is a closing bracket, perhaps with a semicolon in front of it. -/
theorem of_noFurther {r : Lexeme} (hr : r.kind = .rParen)
    (hn : ((takeThen .semicolon noParameter).read c).problems = [])
    (ha : ((takeThen .semicolon noParameter).read c).rest.ahead = r :: rest) :
    EndsParameter c.ahead ∧ (takeThen .semicolon noParameter).Reads
        ((takeThen .semicolon noParameter).read c).made (r :: rest) ∧
      ∀ u ∈ ((takeThen .semicolon noParameter).read c).made, u.kind.isToken := by
  have hs : (takeThen .semicolon noParameter).Reads _ (r :: rest) :=
    (SteadyAt.takeThen (R := Alike id) (by decide) (settled_isAt _) steady_noParameter) hn (Nat.lt_succ_self _) _
      (ha ▸ Alike.refl _)
  refine ⟨?_, hs, fun u hu => ?_⟩
  · cases hc : c.isAt .semicolon with
    | true =>
        obtain ⟨l, ls, hl, hk⟩ := exists_ahead hc (by decide)
        exact ⟨l, ls, hl, .inl hk⟩
    | false =>
        rw [takeThen, read_choose, hc] at ha
        exact ⟨r, rest, ha, .inr hr⟩
  · have hy : (takeThen .semicolon noParameter).Yields c _ := yields_takeThen (by decide) yields_noParameter
    exact all_of_yields (q := fun k => k.isToken) hy rfl hn u hu

theorem made_parameter (c : Cursor) : ∃ us, (parameter.read c).made = [.node NodeKind.parameter us] := by
  rw [parameter, read_node]
  exact ⟨_, rfl⟩

/-- A parameter stands at the end of those that were read. -/
theorem exists_last {tss : List (List Tree)} {p : Tree} {d : Cursor} (hp : p.kind = NodeKind.parameter)
    (h : Rounds (Continues .semicolon startsParameter) (take ++ parameter) c tss d) :
    ∃ (as : List Tree) (u : Tree), p :: tss.flatten = as ++ [u] ∧ u.kind = NodeKind.parameter := by
  rcases List.eq_nil_or_concat tss with rfl | ⟨xss, xs, rfl⟩
  · exact ⟨[], p, rfl, hp⟩
  · rw [List.concat_eq_append] at h ⊢
    obtain ⟨e, -, hx⟩ := h.split
    obtain ⟨-, -, -, hm, -⟩ := of_rounds_cons hx
    obtain ⟨us, hu⟩ := made_parameter (take.read e).rest
    rw [read_append, hu] at hm
    refine ⟨p :: xss.flatten ++ (take.read e).made, .node NodeKind.parameter us, ?_, rfl⟩
    rw [List.flatten_append, ← hm]
    simp

/-- A list of parameters is read with further ones behind the last of them. -/
theorem reads_parameters_with (hq : ∀ q ∈ qs, Passes q) (hc : atParameter c = true)
    (hn : (parameters.read c).problems = []) {r : Lexeme} (hr : r.kind = .rParen)
    (ha : (parameters.read c).rest.ahead = r :: rest) :
    ∃ (as : List Tree) (p : Tree) (bs : List Tree), (parameters.read c).made = as ++ p :: bs ∧
      p.kind = NodeKind.parameter ∧ (∀ u ∈ bs, u.kind.isToken) ∧
      listed.Reads (as ++ p :: (separated qs ++ bs)) (r :: rest) := by
  rw [parameters_eq, read_append, read_append] at hn ha ⊢
  obtain ⟨hn, hnl⟩ := List.append_eq_nil_iff.mp hn
  obtain ⟨hnp, hnf⟩ := List.append_eq_nil_iff.mp hn
  dsimp only at ha hnl hnf ⊢
  obtain ⟨us, hp⟩ := made_parameter c
  have hfirst := steady_parameter c hnp (Nat.lt_succ_self _)
  generalize (parameter.read c).rest = d at ha hnl hnf hfirst ⊢
  have hopen {e : Cursor} (he : Continues .semicolon startsParameter e = true) : e.ahead ≠ [] :=
    ahead_of_isAt (Bool.and_eq_true_iff.mp he).1 (by decide)
  obtain ⟨tss, hrounds, hflat, hstop⟩ := rounds_of_read (fun _ => hopen)
    (fun _ he _ => leaves_ne_nil_of_opens (Opens.take (hopen he)).append) hnf
  change (furtherParameters.read d).made = _ at hflat
  change Continues _ _ (furtherParameters.read d).rest = false at hstop
  change Rounds _ _ d tss (furtherParameters.read d).rest at hrounds
  -- Behind the further parameters only a semicolon can stand in front of the bracket.
  generalize (furtherParameters.read d).rest = e at ha hnl hrounds hstop ⊢
  obtain ⟨he, hlast, htoken⟩ := of_noFurther hr hnl ha
  have hleaves := read_leaves (takeThen .semicolon noParameter) e
  rw [ha] at hleaves
  have hsep : Repeats (Continues .semicolon startsParameter) (take ++ parameter) (separated qs) e.ahead :=
    repeats_separated hq he fun _ => hstop
  have hends : EndsParameter (leavesOf (separated qs) ++ e.ahead) := endsParameter_separated he
  have halike := he.alike hends
  -- What ends a parameter is the same with the further ones behind it, so the old ones are read as they were.
  have hfurther := SteadyAt.repeats hrounds (fun f hf hfn _ => round_continued (by decide) hf
    (led_parameter (kind_behind_separator hf)) hfn) (Nat.lt_succ_self _) halike hsep
  have hd := hrounds.leaves
  have hone := hfirst (leavesOf (tss.flatten ++ separated qs) ++ e.ahead) (by
    rw [← hd, leavesOf_append, List.append_assoc]
    exact Stacks.append _ halike)
  rw [← hleaves] at hfurther hone
  have hall : listed.Reads _ _ := .choose_true (fun m => ?_)
    ((Reads.append (p := parameter) (q := furtherParameters) hone hfurther.reads).append hlast)
  obtain ⟨as, p, hsplit, hpk⟩ := exists_last (p := .node NodeKind.parameter us) rfl hrounds
  rw [hp, hflat]
  refine ⟨as, p, _, ?_, hpk, htoken, ?_⟩
  · rw [List.singleton_append, hsplit]
    simp
  · rw [hp, ← List.append_assoc, List.singleton_append, hsplit] at hall
    simpa using hall
  · rw [← hc]
    refine (settled_atParameter c _ ?_).symm
    rw [← read_leaves parameter c, leavesOf_append, leavesOf_append, List.append_assoc, List.append_assoc]
    exact Alike.append (leaves_ne_nil_of_opens (leads_parameter hc).opens) _ _

/-! ## Lists of parameters -/

/-- The brackets of a list of parameters and what is between them. -/
theorem read_parameterList (hc : c.kind = .lParen) (hn : (parameterList.read c).problems = []) :
    ∃ (l r : Lexeme) (e : Cursor), l.kind = .lParen ∧ r.kind = .rParen ∧ (listed.read e).problems = [] ∧
      (listed.read e).rest.ahead = r :: (parameterList.read c).rest.ahead ∧
      (parameterList.read c).made =
        [.node NodeKind.parameterList (.leaf l :: ((listed.read e).made ++ [.leaf r]))] := by
  have hread : (take ++ listed ++ require .rParen).read c = (take ++ (listed ++ require .rParen)).read c :=
    read_assoc _ _ _ c
  obtain ⟨m, _ | ⟨l, ls⟩⟩ := c
  · cases hc
  rw [show parameterList = node NodeKind.parameterList (take ++ listed ++ require .rParen) from rfl, read_node,
    hread, read_append, read_append] at hn ⊢
  obtain ⟨hw, hr⟩ := List.append_eq_nil_iff.mp (List.append_eq_nil_iff.mp hn).2
  obtain ⟨r, hrk, hrm, hra⟩ := read_require (by decide) hr
  refine ⟨l, r, _, hc, hrk, hw, hra, ?_⟩
  rw [hrm]
  rfl

theorem reads_parameterBrackets {l r : Lexeme} {us : List Tree} (hr : r.kind = .rParen)
    (h : listed.Reads us (r :: rest)) :
    parameterList.Reads [.node NodeKind.parameterList (.leaf l :: (us ++ [.leaf r]))] rest := by
  obtain ⟨_, r⟩ := r
  cases hr
  exact (Reads.assoc (.take_append l h.append_require)).node _

/-- The parts of a list of parameters, and those with further ones: behind the last of them, or behind the
bracket if there is none. -/
inductive Lengthened (qs : List Tree) : List Tree → List Tree → Prop
  | behind {as bs : List Tree} {p : Tree} : p.kind = NodeKind.parameter →
      (∀ u ∈ bs, u.kind ≠ NodeKind.parameter) →
      Lengthened qs (as ++ p :: bs) (as ++ p :: (separated qs ++ bs))
  | into {as bs : List Tree} {b : Tree} : (∀ u ∈ as, u.kind ≠ TokenKind.lParen) → b.kind = TokenKind.lParen →
      (∀ u ∈ as ++ b :: bs, u.kind ≠ NodeKind.parameter) →
      Lengthened qs (as ++ b :: bs) (as ++ b :: ((separated qs).tail ++ bs))

/-- Lists are cut alike at the last element with a property. -/
theorem cut_last {α : Type} {P : α → Bool} {as bs as' bs' : List α} {u u' : α}
    (h : as ++ u :: bs = as' ++ u' :: bs') (hu : P u = false) (hb : ∀ x ∈ bs, P x) (hu' : P u' = false)
    (hb' : ∀ x ∈ bs', P x) : as = as' ∧ u = u' ∧ bs = bs' := by
  have hrev := congrArg List.reverse h
  simp only [List.reverse_append, List.reverse_cons, List.append_assoc, List.singleton_append] at hrev
  obtain ⟨hbs, has⟩ := cut_unique (p := P) hrev (by simpa using hb) (by simpa using hu) (by simpa using hb')
    (by simpa using hu')
  obtain ⟨hu, hrest⟩ := List.cons.inj has
  exact ⟨List.reverse_inj.mp hrest, hu, List.reverse_inj.mp hbs⟩

theorem made_noParameter (c : Cursor) : (noParameter.read c).made = [] := by
  rw [noParameter, read_choose]
  split <;> rfl

/-- A list of parameters is read with further ones. -/
theorem reads_lengthened (hq : ∀ q ∈ qs, Passes q) (hne : qs ≠ []) (hc : c.kind = .lParen)
    (hn : (parameterList.read c).problems = []) {ps ps' : List Tree}
    (hm : (parameterList.read c).made = [.node NodeKind.parameterList ps]) (h : Lengthened qs ps ps') :
    parameterList.Reads [.node NodeKind.parameterList ps'] (parameterList.read c).rest.ahead := by
  obtain ⟨l, r, e, hl, hr, hn, ha, hmade⟩ := read_parameterList hc hn
  injection (List.cons.inj (hmade.symm.trans hm)).1 with _ hps
  cases hat : atParameter e with
  | true =>
      rw [listed, read_choose, if_pos hat] at hn ha hps
      obtain ⟨as, p, bs, hmade, hp, hbs, hreads⟩ := reads_parameters_with hq hat hn hr ha
      rw [hmade] at hps
      cases h with
      | @behind as' bs' p' hp' hbs' =>
          have hcut : (.leaf l :: as) ++ p :: (bs ++ [.leaf r]) = as' ++ p' :: bs' := by simpa using hps
          have hno : ∀ u ∈ bs ++ [.leaf r], u.kind.isToken :=
            List.forall_mem_append.mpr ⟨hbs, by simp [Tree.kind, Kind.isToken]⟩
          have hne : ∀ u ∈ bs ++ [.leaf r], u.kind ≠ .node .parameter := fun u hu hk => by
            have ht := hno u hu
            rw [hk] at ht
            cases ht
          -- Both are the last parameter of the list.
          obtain ⟨rfl, rfl, rfl⟩ := cut_last (P := fun u : Tree => u.kind != NodeKind.parameter) hcut (by simp [hp])
            (by simpa using hne) (by simp [hp']) (by simpa using hbs')
          simpa using reads_parameterBrackets (l := l) hr hreads
      | into _ _ hno =>
          refine absurd hp (hno p ?_)
          rw [← hps]
          simp
  | false =>
      rw [listed, read_choose, if_neg (by rw [hat]; decide), made_noParameter] at hps
      cases h with
      | @behind as bs p hp hbs =>
          have hmem : p ∈ as ++ p :: bs := by simp
          rw [← hps] at hmem
          simp only [List.nil_append, List.mem_cons, List.not_mem_nil, or_false] at hmem
          rcases hmem with rfl | rfl <;> cases hp
      | @into as bs b has hb hno =>
          obtain ⟨q, qs, rfl⟩ := List.exists_cons_of_ne_nil hne
          have hcut : [] ++ .leaf l :: [.leaf r] = as ++ b :: bs := hps
          obtain ⟨rfl, hps⟩ := cut_unique (p := fun u : Tree => u.kind != .token .lParen) hcut (by simp)
            (by simp [Tree.kind, hl]) (by simpa using has) (by simp [hb])
          obtain ⟨rfl, rfl⟩ := List.cons.inj hps
          refine reads_parameterBrackets hr (.choose_true (fun m => ?_) (reads_parameters hq hr))
          have hf := (hq q List.mem_cons_self).found m
          rw [separated_cons, List.cons_append, List.tail_cons, List.singleton_append, leavesOf, List.append_assoc]
          exact hf _

/-! ## Procedures -/

/-- What follows is the same. -/
def Same : Follow := fun ls ms => ls = ms

instance : Stacks Same where
  append us h := congrArg (us ++ ·) h

theorem Same.alike {κ : Lexeme → Lexeme} {ls ms : List Lexeme} (h : Same ls ms) : Alike κ ls ms :=
  congrArg (Option.map κ) (congrArg List.head? h)

/-- What a procedure has behind its parameters. -/
def methodEnd : Production :=
  choose atReturnValue returnValue skip ++ takeIf .semicolon ++ methodVariables ++ methodBody

def methodParameters : Production := choose (·.isAt .lParen) parameterList (report (.missing .lParen))

theorem steady_methodEnd : SteadyAt Same n methodEnd methodEnd c := by
  have hs {α : Type} {f : Cursor → α} (hf : ∀ i j ls, f ⟨i, ls⟩ = f ⟨j, ls⟩) : Settled Same f := by
    rintro ⟨i, ls⟩ ⟨j, ms⟩ h
    obtain rfl : ls = ms := h
    exact hf i j ls
  refine .append (.append (.append (.choose (hs fun _ _ _ => rfl) (fun h => ?_) fun _ => .skip)
    (.takeIf (by decide) (hs fun _ _ _ => rfl))) (steady_methodVariables.imp fun ls ms h => ?_))
    (steady_methodBody.imp fun _ _ => Same.alike)
  · exact ((led_returnValue h).steady.of_le (Nat.le_succ n)).imp fun _ _ => Same.alike
  · obtain rfl : ls = ms := h
    exact ⟨.refl ls, fun _ _ => rfl⟩

theorem read_methodRest (c : Cursor) : methodRest.read c =
    (nameOr .missingProcedureName ++ (methodParameters ++ methodEnd)).read c := by
  simp only [methodRest_eq, methodHead, methodParameters, methodEnd, read_append, List.append_assoc]

/-- Some trees with a list of parameters among them: what stands in front of it and behind it, and the way
to read them with another list. -/
structure ReadsParameters (p : Production) (ts : Outcome (List Tree)) (hs : List Tree) (e : Cursor)
    (rs : List Tree) : Prop where
  kind : e.kind = .lParen
  problems : (parameterList.read e).problems = []
  made : ts.made = hs ++ ((parameterList.read e).made ++ rs)
  opens : leavesOf hs ≠ []
  kinds : ∀ u ∈ hs, u.kind ≠ NodeKind.parameterList
  reads {t : Tree} : parameterList.Reads [t] (parameterList.read e).rest.ahead →
    (∀ m more, Cursor.isAt ⟨m, t.leaves ++ more⟩ .lParen = true) → p.Reads (hs ++ t :: rs) ts.rest.ahead

theorem exists_readsParameters (hn : (methodTail.read c).problems = []) :
    ∃ hs e rs, ReadsParameters methodTail (methodTail.read c) hs e rs := by
  obtain ⟨hk, -⟩ := read_methodTail hn
  obtain ⟨m, _ | ⟨l, ls⟩⟩ := c
  · cases hk
  have hread : methodTail.read ⟨m, l :: ls⟩ = (take ++ methodRest).read ⟨m, l :: ls⟩ := by
    rw [methodTail, read_choose, if_pos hk]
  rw [hread, read_append, read_methodRest, read_append, read_append] at hn
  rw [hread, read_append, read_methodRest, read_append, read_append]
  obtain ⟨-, hn⟩ := List.append_eq_nil_iff.mp hn
  obtain ⟨hnn, hn⟩ := List.append_eq_nil_iff.mp hn
  obtain ⟨hnp, hne⟩ := List.append_eq_nil_iff.mp hn
  have hname := firm_nameOr .missingProcedureName hnn (Nat.lt_succ_self _)
  have hkinds := kinds_of_yields (yields_nameOr .missingProcedureName)
    (show (Pattern.symbols _).all fun s => !([.node .parameterList] : List Kind).contains s.kind from rfl) hnn
  generalize ((nameOr .missingProcedureName).read (take.read ⟨m, l :: ls⟩).rest).rest = e at hnp hne hname ⊢
  generalize ((nameOr .missingProcedureName).read (take.read ⟨m, l :: ls⟩).rest).made = ns at hname hkinds ⊢
  have hp : e.isAt .lParen = true := by
    by_contra hp
    simp [methodParameters, hp] at hnp
  rw [show methodParameters.read e = parameterList.read e by rw [methodParameters, read_choose, if_pos hp]]
    at hnp hne ⊢
  have hend := steady_methodEnd hne (Nat.lt_succ_self _) _ rfl
  have hleaves := read_leaves methodEnd (parameterList.read e).rest
  refine ⟨.leaf l :: ns, e, (methodEnd.read (parameterList.read e).rest).made, kind_of_isAt hp, hnp, rfl,
    List.cons_ne_nil _ _, fun u hu => ?_, fun {t} ht hl => ?_⟩
  · rcases List.mem_cons.mp hu with rfl | hu
    · intro hk
      cases hk
    · simpa using hkinds u hu
  · dsimp only
    generalize methodEnd.read (parameterList.read e).rest = o at hend hleaves ⊢
    have hq : methodParameters.Reads [t] (leavesOf o.made ++ o.rest.ahead) :=
      .choose_true (fun m => by
        rw [leavesOf, leavesOf, List.append_nil]
        exact hl m _) (hleaves ▸ ht)
    have hr := Reads.append (hname _ trivial) (hq.append hend)
    have hrest : methodRest.Reads (ns ++ t :: o.made) o.rest.ahead :=
      ⟨fun m => by rw [read_methodRest]; exact hr.outcome m⟩
    exact .choose_true (fun _ => hk) (hrest.take_append l)

section Exchanged

variable {ps ps' : List Tree} {l : Lexeme}

theorem Lengthened.leaf {us : List Tree} (h : Lengthened qs (.leaf l :: us) ps') : ∃ us', ps' = .leaf l :: us' := by
  generalize hps : Tree.leaf l :: us = ps at h
  cases h with
  | @behind as bs p hp hbs =>
      cases as with
      | nil =>
          rw [← (List.cons.inj hps).1] at hp
          cases hp
      | cons a as => exact ⟨_, by rw [(List.cons.inj hps).1]; rfl⟩
  | @into as bs b =>
      cases as with
      | nil => exact ⟨_, by rw [(List.cons.inj hps).1]; rfl⟩
      | cons a as => exact ⟨_, by rw [(List.cons.inj hps).1]; rfl⟩

theorem Lengthened.leaves (h : Lengthened qs ps ps') (hq : ∀ q ∈ qs, Passes q) (hne : qs ≠ []) :
    leavesOf ps' ≠ [] ∧ (leavesOf ps).length ≤ (leavesOf ps').length := by
  obtain ⟨q, qs, rfl⟩ := List.exists_cons_of_ne_nil hne
  have hl := (hq q List.mem_cons_self).leaves_ne_nil
  cases h <;> simp [leavesOf_append, leavesOf, separated_cons, hl] <;> omega

/-- A procedure is exchanged for one with further parameters. -/
theorem exchanges_lengthened (hq : ∀ q ∈ qs, Passes q) (hne : qs ≠ []) {k : Kind} (hk : k.isMethod)
    {hs rs : List Tree} (hhs : ∀ u ∈ hs, u.kind ≠ NodeKind.parameterList) (h : Lengthened qs ps ps') :
    Exchanges (.node k (hs ++ .node NodeKind.parameterList ps :: rs))
      (.node k (hs ++ .node NodeKind.parameterList ps' :: rs)) := by
  obtain ⟨hl, hlen⟩ := h.leaves hq hne
  refine ⟨hk, ?_, ?_, fun {c} hc hn hm => ?_⟩
  · simp [Tree.leaves, leavesOf_append, leavesOf, hl]
  · simp only [Tree.leaves, leavesOf_append, leavesOf, List.length_append]
    omega
  have hread := hn
  rw [method_eq, read_mark] at hread
  obtain ⟨hns, hnt⟩ := List.append_eq_nil_iff.mp hread
  have hmade := hm
  rw [method_eq, read_mark] at hmade
  obtain ⟨hs', e, rs', H⟩ := exists_readsParameters hnt
  obtain ⟨l, r, f, hlk, -, -, -, hlist⟩ := read_parameterList H.kind H.problems
  have hahead := read_leaves methodTail (methodStart.read c).rest
  -- No list of parameters stands in front of the one that is read, so the exchanged one is this.
  have hkinds : ∀ u ∈ (methodStart.read c).made, u.kind ∉ [Kind.node .parameterList] :=
    kinds_of_yields (yields_methodStart fun he => by
      obtain ⟨ha, -⟩ := read_methodTail hnt
      simp [Cursor.atAny, he] at ha) rfl hns
  dsimp only at hmade
  rw [H.made, hlist] at hmade hahead
  obtain ⟨rfl, hparts⟩ := of_singleton hmade
  rw [← List.append_assoc] at hparts
  obtain ⟨rfl, hbehind⟩ := cut_unique (p := fun u : Tree => u.kind != .node .parameterList) hparts (fun u hu => by
      rcases List.mem_append.mp hu with hu | hu
      · simpa using hkinds u hu
      · simpa using H.kinds u hu) (fun u hu => by rw [← Option.mem_some.mp hu]; rfl) (by simpa using hhs)
      (fun u hu => by rw [← Option.mem_some.mp hu]; rfl)
  obtain ⟨hps, rfl⟩ := List.cons.inj hbehind
  injection hps with _ hps
  subst hps
  have hnew := reads_lengthened hq hne H.kind H.problems hlist h
  obtain ⟨us, rfl⟩ := h.leaf
  have htail := H.reads hnew fun m more => by simp [Cursor.isAt, Tree.leaves, leavesOf, hlk]
  refine replaces_of_reads hc hn hm (fun ls ms => ?_) ?_
  · simp only [leavesOf, Tree.leaves, List.append_nil, leavesOf_append, List.append_assoc]
    rw [← List.append_assoc, ← List.append_assoc _ (leavesOf hs')]
    exact Alike.append (List.append_ne_nil_of_right_ne_nil _ H.opens) _ _
  · have hr := reads_method_with hn (by
      rw [← hahead]
      simp only [leavesOf_append, List.append_assoc]
      exact Alike.append H.opens _ _) htail
    rw [List.append_assoc]
    rwa [show (method.read c).rest = (methodTail.read (methodStart.read c).rest).rest by rw [method_eq, read_mark]]

end Exchanged

end AlRefactor.Grammar
