import AlRefactor.Proofs.Grammar.SteadyMembers
import AlRefactor.Proofs.Syntax.Shape

/-!
# Reading with one more declaration

A section of variables, a procedure and an object that are read without a problem are read the same
with one more declaration at any place of the section, or with a new section in front of the body, the
first procedure or the closing brace.
-/

namespace AlRefactor.Grammar

open Production AlRefactor.Tree

variable {c : Cursor} {n : Nat}

/-- A declaration that is read back as one variable, whatever follows. -/
structure Declares (d : Tree) : Prop where
  reads (rest : List Lexeme) : variableDeclaration.Reads [d] rest
  found (m : Nat) (more : List Lexeme) : atVariable ⟨m, d.leaves ++ more⟩ = true

/-! ## Sections -/

theorem reads_leaves {d : Tree} (h : Declares d) : leavesOf [d] ≠ [] := by
  have hr := h.reads []
  have ht := h.found 0 []
  have hm := (hr.outcome 0).1
  have ho := leaves_ne_nil_of_opens (leads_variableDeclaration (c := ⟨0, leavesOf [d] ++ []⟩) (by
    rwa [show leavesOf [d] = d.leaves from List.append_nil _])).opens
  rwa [hm] at ho

/-- Variables that are read without a problem are read in front of others. -/
theorem repeats_variables {tss : List (List Tree)} {e : Cursor}
    (h : Rounds atVariable variableDeclaration c tss e) {us : List Tree} {rest : List Lexeme}
    (hs : Repeats atVariable variableDeclaration us rest) :
    Repeats atVariable variableDeclaration (tss.flatten ++ us) rest :=
  SteadyAt.repeats (R := Whatever) h (fun _ hd hn _ => ⟨firm_variableDeclaration,
      (round_variableDeclaration (n := 0) hd hn).reads, atVariable_variableDeclaration hd hn,
      fun _ _ => trivial⟩) (Nat.lt_succ_self _) trivial hs

/-- The words a section starts with. -/
def sectionWords : Production := takeIf .kwProtected ++ take

theorem varSection_eq (kind : NodeKind) :
    varSection kind = node kind (sectionWords ++ whileAt atVariable variableDeclaration) := rfl

theorem firm_sectionWords (hc : c.kind = .kwVar ∨ c.kind = .kwProtected ∧ c.peek 1 = .kwVar) :
    FirmAt n sectionWords sectionWords c := by
  have hr : ((takeIf .kwProtected).read c).rest.ahead ≠ [] :=
    ahead_ne_nil (by rw [kind_rest_protected hc]; decide)
  exact .append_reading (.takeIf (by decide) (settled_isAt _)) (.take hr)
    fun _ => leaves_ne_nil_of_opens (.take hr)

/-- Each round of a repetition of nodes makes one of the trees. -/
theorem rounds_singles {test : Cursor → Bool} {p : Production} {tss : List (List Tree)} {e : Cursor}
    (h : Rounds test p c tss e)
    (hs : ∀ d, test d = true → (p.read d).problems = [] → ∃ t, (p.read d).made = [t]) :
    tss = tss.flatten.map ([·]) := by
  induction h with
  | stop => rfl
  | round ht hn _ _ ih =>
      obtain ⟨t, hm⟩ := hs _ ht hn
      rw [hm, List.flatten_cons, List.map_append, ← ih]
      rfl

theorem flatten_singles {α : Type} (ts : List α) : (ts.map ([·])).flatten = ts := by
  induction ts with
  | nil => rfl
  | cons t ts ih => exact congrArg (t :: ·) ih

/-- The variables of a section, read again with one more among them. -/
theorem reads_variables_with {d : Tree} (hd : Declares d) {as bs : List Tree}
    (hn : ((whileAt atVariable variableDeclaration).read c).problems = [])
    (hm : ((whileAt atVariable variableDeclaration).read c).made = as ++ bs) :
    (whileAt atVariable variableDeclaration).Reads (as ++ d :: bs)
      ((whileAt atVariable variableDeclaration).read c).rest.ahead := by
  obtain ⟨tss, hr, hf, hs⟩ := rounds_of_read (fun _ => ahead_of_atVariable)
    (fun _ hd hp => (round_variableDeclaration (n := 0) hd hp).reads) hn
  have ht := rounds_singles hr fun e _ _ => ⟨_, by rw [variableDeclaration_eq, read_mark]⟩
  rw [← hf, hm, List.map_append] at ht
  rw [ht] at hr
  obtain ⟨e, ha, hb⟩ := hr.split
  have hrest : Repeats atVariable variableDeclaration [] _ := .nil fun m => hs
  have hbs := repeats_variables hb hrest
  rw [flatten_singles, List.append_nil] at hbs
  have hds : Repeats atVariable variableDeclaration ([d] ++ bs) _ :=
    .cons (fun m => by
      rw [show leavesOf [d] = d.leaves from List.append_nil _]
      exact hd.found m _) (hd.reads _) (reads_leaves hd) hbs
  have has := repeats_variables ha hds
  rw [flatten_singles] at has
  exact has.reads

theorem made_varSection (kind : NodeKind) : ((varSection kind).read c).made =
    [.node kind ((sectionWords.read c).made ++
      ((whileAt atVariable variableDeclaration).read (sectionWords.read c).rest).made)] := by
  rw [varSection_eq, read_node, read_append]

theorem reads_varSection_with {kind : NodeKind} {d : Tree} (hd : Declares d) {as bs : List Tree}
    (hc : c.kind = .kwVar ∨ c.kind = .kwProtected ∧ c.peek 1 = .kwVar)
    (hn : ((varSection kind).read c).problems = [])
    (hm : ((whileAt atVariable variableDeclaration).read (sectionWords.read c).rest).made = as ++ bs) :
    (varSection kind).Reads [.node kind ((sectionWords.read c).made ++ (as ++ d :: bs))]
      ((varSection kind).read c).rest.ahead := by
  rw [varSection_eq, read_node, read_append] at hn ⊢
  obtain ⟨hw, hv⟩ := List.append_eq_nil_iff.mp hn
  exact ((firm_sectionWords hc hw (Nat.lt_succ_self _) _ trivial).append
    (reads_variables_with hd hv hm)).node _

/-- The words are tokens, and nodes stand behind them. -/
theorem kinds_sectionWords (u : Tree) (hu : u ∈ (sectionWords.read c).made) : u.kind.isToken := by
  obtain ⟨m, _ | ⟨l, _ | ⟨l', ls⟩⟩⟩ := c
  all_goals
    simp only [sectionWords, takeIf, read_append, read_choose] at hu
    split at hu <;> simp at hu <;> aesop

/-- A new section. -/
def newSection (kind : NodeKind) (d : Tree) : Tree := .node kind [.leaf ⟨.kwVar, "var".toList⟩, d]

theorem reads_newSection {kind : NodeKind} {d : Tree} (hd : Declares d) {rest : List Lexeme}
    (hr : ∀ m, atVariable ⟨m, rest⟩ = false) : (varSection kind).Reads [newSection kind d] rest := by
  have hp : (takeIf .kwProtected).Reads [] (⟨.kwVar, "var".toList⟩ :: (leavesOf [d] ++ rest)) :=
    reads_nothing fun _ => rfl
  have hv : Repeats atVariable variableDeclaration ([d] ++ []) rest :=
    .cons (fun m => by
      rw [show leavesOf [d] = d.leaves from List.append_nil _]
      exact hd.found m _) (hd.reads _) (reads_leaves hd) (.nil hr)
  exact (((hp.append (reads_take _ _)).append hv.reads)).node _

/-! ## Procedures -/

/-- What holds of the kinds of all symbols of a pattern holds of all trees that match it. -/
theorem all_of_yields {p : Production} {r : Pattern} {q : Kind → Bool} (h : p.Yields c r)
    (hr : (Pattern.symbols r).all fun s => q s.kind) (hn : (p.read c).problems = []) :
    ∀ u ∈ (p.read c).made, q u.kind := by
  intro u hu
  have hs := Pattern.all_symbols hr (h hn).2 _ (List.mem_map_of_mem hu)
  rwa [Tree.kind_symbol] at hs

/-- Where the symbols of a pattern are none of some kinds, no tree that matches it is. -/
theorem kinds_of_yields {p : Production} {r : Pattern} {ks : List Kind} (h : p.Yields c r)
    (hr : (Pattern.symbols r).all fun s => !ks.contains s.kind) (hn : (p.read c).problems = []) :
    ∀ u ∈ (p.read c).made, u.kind ∉ ks := fun u hu => by
  simpa using all_of_yields (q := fun k => !ks.contains k) h hr hn u hu

/-- The kinds of the parts of a procedure that follow its head. -/
abbrev bodyKinds : List Kind := [NodeKind.varSection, NodeKind.block]

theorem kinds_methodHead (hn : (methodHead.read c).problems = []) :
    ∀ u ∈ (methodHead.read c).made, u.kind ∉ bodyKinds := by
  have hy : methodHead.Yields c (.node .identifierName * .node .parameterList *
      .optional (.node .returnValue) * .optional (.token .semicolon)) := by
    refine .append (.append (.append (yields_nameOr _) ?_) ?_) (yields_takeIf nofun)
    · exact .choose (fun h => yields_parameterList (kind_of_isAt h)) fun _ => .report
    · exact .optionalIf yields_returnValue
  exact kinds_of_yields hy rfl hn

theorem kinds_methodStart (h : (methodStart.read c).rest.kind ≠ .eof)
    (hn : (methodStart.read c).problems = []) : ∀ u ∈ (methodStart.read c).made, u.kind ∉ bodyKinds :=
  kinds_of_yields (yields_methodStart h) rfl hn

theorem kinds_take (ks : List Kind) (hk : (.token c.kind) ∉ ks) : ∀ u ∈ (take.read c).made, u.kind ∉ ks := by
  obtain ⟨m, _ | ⟨l, ls⟩⟩ := c
  · nofun
  · intro u hu
    rw [List.mem_singleton.mp hu]
    exact hk

/-- A procedure without problems: what stands in front of its variables, and the way to read it with
other variables and another body. -/
structure ReadsMethod (c : Cursor) (k : Kind) (hs : List Tree) (e : Cursor) : Prop where
  made : (method.read c).made = [.node k (hs ++ ((methodVariables ++ methodBody).read e).made)]
  problems : ((methodVariables ++ methodBody).read e).problems = []
  rest : (method.read c).rest = ((methodVariables ++ methodBody).read e).rest
  opens : leavesOf hs ≠ []
  kinds : ∀ u ∈ hs, u.kind ∉ bodyKinds
  reads (us : List Tree) (rest : List Lexeme) : HeadEnd e.ahead (leavesOf us ++ rest) →
    (methodVariables ++ methodBody).Reads us rest → method.Reads [.node k (hs ++ us)] rest

theorem read_assoc (p q r : Production) (c : Cursor) :
    (p ++ q ++ r).read c = (p ++ (q ++ r)).read c := by
  simp only [read_append, List.append_assoc]

theorem Reads.assoc {p q r : Production} {ts : List Tree} {rest : List Lexeme}
    (h : (p ++ (q ++ r)).Reads ts rest) : (p ++ q ++ r).Reads ts rest :=
  ⟨fun m => by rw [read_assoc]; exact h.outcome m⟩

/-- The kind that the keyword of a member shows. -/
def methodKind (c : Cursor) : Kind :=
  if c.isAt .kwTrigger then NodeKind.triggerDeclaration
  else if c.isAt .kwProcedure then NodeKind.methodDeclaration
  else TokenKind.error

theorem method_eq : method = mark methodStart methodKind methodTail := rfl

theorem settled_methodKind : Settled (Alike id) methodKind :=
  settled_of fun _ ls => by cases ls <;> rfl

/-- A keyword, what stands in front of the variables, and the rest. -/
theorem read_methodTail (hn : (methodTail.read c).problems = []) :
    c.atAny [.kwTrigger, .kwProcedure] = true ∧ methodTail.read c =
      (take ++ (methodHead ++ (methodVariables ++ methodBody))).read c := by
  have hk : c.atAny [.kwTrigger, .kwProcedure] = true := by
    by_contra hk
    simp [methodTail, hk] at hn
  refine ⟨hk, ?_⟩
  rw [methodTail, read_choose, if_pos hk, read_append, methodRest_eq, read_assoc, ← read_append]

theorem reads_methodTail_with (hn : (methodTail.read c).problems = []) (us : List Tree)
    (rest : List Lexeme)
    (ha : HeadEnd (methodHead.read (take.read c).rest).rest.ahead (leavesOf us ++ rest))
    (hb : (methodVariables ++ methodBody).Reads us rest) :
    methodTail.Reads ((take.read c).made ++ ((methodHead.read (take.read c).rest).made ++ us)) rest := by
  obtain ⟨hk, ht⟩ := read_methodTail hn
  rw [ht, read_append, read_append] at hn
  obtain ⟨-, hn⟩ := List.append_eq_nil_iff.mp hn
  have hh := steady_methodHead (List.append_eq_nil_iff.mp hn).1 (Nat.lt_succ_self _) _ ha
  obtain ⟨m, ls⟩ := c
  cases ls with
  | nil => cases hk
  | cons l ls =>
      refine .choose_true (fun _ => hk) (.take_append l ?_)
      rw [methodRest_eq]
      exact Reads.assoc (hh.append hb)

/-- A procedure is read with something else from its keyword on. -/
theorem reads_method_with (hn : (method.read c).problems = []) {us : List Tree} {rest : List Lexeme}
    (ha : Alike id (methodStart.read c).rest.ahead (leavesOf us ++ rest)) (ht : methodTail.Reads us rest) :
    method.Reads [.node (methodKind (methodStart.read c).rest) ((methodStart.read c).made ++ us)] rest := by
  rw [method_eq, read_mark] at hn
  have hs := steady_methodStart (List.append_eq_nil_iff.mp hn).1 (Nat.lt_succ_self _) _ ha
  exact hs.mark (fun m => (settled_methodKind _ ⟨m, _⟩ ha).symm) ht

theorem exists_readsMethod (hn : (method.read c).problems = []) : ∃ k hs e, ReadsMethod c k hs e := by
  have hread : method.read c = (mark methodStart methodKind methodTail).read c := by rw [method_eq]
  have hnew {us : List Tree} {rest : List Lexeme} (ha : Alike id _ (leavesOf us ++ rest)) := reads_method_with hn ha
  rw [read_mark] at hread
  rw [hread] at hn
  obtain ⟨hns, hnt⟩ := List.append_eq_nil_iff.mp hn
  have hkinds := fun h => kinds_methodStart h hns
  generalize (methodStart.read c).rest = c₁ at hnt hkinds hread hnew
  have hwith := reads_methodTail_with hnt
  obtain ⟨hk, ht⟩ := read_methodTail hnt
  rw [ht, read_append, read_append] at hnt hread
  obtain ⟨-, hnt⟩ := List.append_eq_nil_iff.mp hnt
  obtain ⟨hnh, hnb⟩ := List.append_eq_nil_iff.mp hnt
  have hl : leavesOf (take.read c₁).made ≠ [] :=
    leaves_ne_nil_of_opens (.take (ahead_ne_nil fun h => by simp [Cursor.atAny, h] at hk))
  have hc₁ := read_leaves take c₁
  refine ⟨methodKind c₁, (methodStart.read c).made ++ ((take.read c₁).made ++
    (methodHead.read (take.read c₁).rest).made), _, ?_, hnb, ?_, ?_, fun u hu => ?_, fun us rest ha hb => ?_⟩
  · rw [hread]
    simp only [List.append_assoc]
  · rw [hread]
  · rw [leavesOf_append, leavesOf_append]
    exact List.append_ne_nil_of_right_ne_nil _ (List.append_ne_nil_of_left_ne_nil hl _)
  · rcases List.mem_append.mp hu with hu | hu
    · exact hkinds (fun h => by simp [Cursor.atAny, h] at hk) u hu
    · rcases List.mem_append.mp hu with hu | hu
      · exact kinds_take _ (by simp) u hu
      · exact kinds_methodHead hnh u hu
  · rw [List.append_assoc, List.append_assoc]
    refine hnew ?_ (hwith us rest ha hb)
    rw [← hc₁, leavesOf_append, List.append_assoc]
    exact Alike.append hl _ _

/-! ## Scopes with one more declaration -/

/-- The parts of a scope and those with one more declaration: in its first section of variables, or in
a new section in front of the first part of some kinds. -/
inductive Declared (kind : NodeKind) (stops : Kind → Bool) (d : Tree) : List Tree → List Tree → Prop
  | extended {hs ws as bs rs : List Tree} : (∀ u ∈ hs, u.kind ≠ kind) → (∀ w ∈ ws, w.kind.isToken) →
      (∀ a ∈ as ++ bs, a.kind.isToken = false) →
      Declared kind stops d (hs ++ .node kind (ws ++ (as ++ bs)) :: rs)
        (hs ++ .node kind (ws ++ (as ++ d :: bs)) :: rs)
  | opened {hs rs : List Tree} {r : Tree} : (∀ u ∈ hs ++ r :: rs, u.kind ≠ kind) →
      (∀ u ∈ hs, stops u.kind = false) → stops r.kind = true →
      Declared kind stops d (hs ++ r :: rs) (hs ++ newSection kind d :: r :: rs)

/-- Lists that are cut where a property is lost are cut alike. -/
theorem cut_unique {α : Type} {p : α → Bool} {hs hs' rs rs' : List α} (h : hs ++ rs = hs' ++ rs')
    (hh : ∀ u ∈ hs, p u) (hr : ∀ u ∈ rs.head?, p u = false) (hh' : ∀ u ∈ hs', p u)
    (hr' : ∀ u ∈ rs'.head?, p u = false) : hs = hs' ∧ rs = rs' := by
  have ht {hs rs : List α} (hh : ∀ u ∈ hs, p u) (hr : ∀ u ∈ rs.head?, p u = false) :
      (hs ++ rs).takeWhile p = hs := by
    rw [List.takeWhile_append_of_pos hh]
    cases rs with
    | nil => simp
    | cons r rs => simp [hr r rfl]
  have hs : hs = hs' := by rw [← ht hh hr, h, ht hh' hr']
  subst hs
  exact ⟨rfl, List.append_cancel_left h⟩

/-! ### Procedures -/

theorem methodVariables_of_var (h : c.isAt .kwVar = true) :
    methodVariables.read c = (varSection .varSection).read c := by
  rw [methodVariables, read_choose, if_pos h]

theorem methodVariables_of_not (h : c.isAt .kwVar = false) :
    methodVariables.read c = ⟨[], false, [], c⟩ := by
  rw [methodVariables, read_choose, h]
  rfl

/-- Where variables or a body follow, variables may stand instead. -/
theorem headEnd_body {l m : Lexeme} (hl : l.kind = .kwVar ∨ l.kind = .kwBegin)
    (hm : m.kind = .kwVar ∨ m.kind = .kwBegin) (ls ms : List Lexeme) :
    HeadEnd (l :: ls) (m :: ms) := by
  have hr {l : Lexeme} (hl : l.kind = .kwVar ∨ l.kind = .kwBegin) (i : Nat) (ls : List Lexeme) :
      atReturnValue ⟨i, l :: ls⟩ = false := by
    refine (not_due ?_ ?_ ?_ i ls).1 <;> rcases hl with h | h <;> simp [h, TokenKind.isName]
  refine ⟨?_, fun i j => (hr hl i ls).trans (hr hm j ms).symm⟩
  simp only [Alike, List.head?_cons, Option.map_some, bodyStart, if_pos hl, if_pos hm]

theorem reads_methodBody (hn : (methodBody.read c).problems = []) :
    methodBody.Reads (methodBody.read c).made (methodBody.read c).rest.ahead :=
  steady_methodBody hn (Nat.lt_succ_self _) _ (Alike.refl _)

/-- What is read of a lexeme on starts with it. -/
theorem leaves_of_ahead {p : Production} {l : Lexeme} {ls : List Lexeme} (hc : c.ahead = l :: ls)
    (hl : leavesOf (p.read c).made ≠ []) : ∃ us, leavesOf (p.read c).made = l :: us := by
  obtain ⟨u, us, hu⟩ := List.exists_cons_of_ne_nil hl
  have hr := read_leaves p c
  rw [hu, hc] at hr
  exact ⟨us, hu.trans (congrArg (· :: us) (List.cons.inj hr).1)⟩

theorem exists_ahead {k : TokenKind} (h : c.isAt k = true) (hk : k ≠ .eof) :
    ∃ l ls, c.ahead = l :: ls ∧ l.kind = k := by
  obtain ⟨l, ls, hl⟩ := List.exists_cons_of_ne_nil (ahead_of_isAt h hk)
  exact ⟨l, ls, hl, by simpa [Cursor.isAt, Cursor.kind, Cursor.peek, hl] using h⟩

variable {d : Tree}

theorem leaves_sectionWords (hc : c.kind = .kwVar ∨ c.kind = .kwProtected ∧ c.peek 1 = .kwVar) :
    leavesOf (sectionWords.read c).made ≠ [] := by
  have hr : ((takeIf .kwProtected).read c).rest.ahead ≠ [] :=
    ahead_ne_nil (by rw [kind_rest_protected hc]; decide)
  rw [sectionWords, read_append, leavesOf_append]
  exact List.append_ne_nil_of_right_ne_nil _ (leaves_ne_nil_of_opens (.take hr))

/-- The variables and the body of a procedure, with one more variable. -/
theorem reads_extendedBody (hd : Declares d) (hv : c.isAt .kwVar = true)
    (hn : ((methodVariables ++ methodBody).read c).problems = []) {as bs : List Tree}
    (hm : ((whileAt atVariable variableDeclaration).read (sectionWords.read c).rest).made = as ++ bs) :
    ∃ l us ls, l.kind = .kwVar ∧ c.ahead = l :: ls ∧
      leavesOf (sectionWords.read c).made = l :: us ∧
    (methodVariables ++ methodBody).Reads
      ([.node NodeKind.varSection ((sectionWords.read c).made ++ (as ++ d :: bs))] ++
        (methodBody.read (methodVariables.read c).rest).made)
      ((methodVariables ++ methodBody).read c).rest.ahead := by
  have hk : c.kind = .kwVar := kind_of_isAt hv
  rw [read_append] at hn ⊢
  obtain ⟨hv', hb⟩ := List.append_eq_nil_iff.mp hn
  rw [methodVariables_of_var hv] at hv' hb ⊢
  obtain ⟨l, ls, hl, hk'⟩ := exists_ahead hv (by decide)
  obtain ⟨us, hu⟩ := leaves_of_ahead hl (leaves_sectionWords (.inl hk))
  have hs := reads_varSection_with hd (.inl hk) hv' hm
  have hb := reads_methodBody hb
  refine ⟨l, us, ls, hk', hl, hu, .append (.choose_true (fun m => ?_) ?_) hb⟩
  · simp only [leavesOf, leaves, leavesOf_append, hu]
    simpa [Cursor.isAt] using hk'
  · rwa [read_leaves methodBody]

/-- The body of a procedure, with a new section in front of it. -/
theorem reads_openedBody (hd : Declares d) (hv : c.isAt .kwVar = false)
    (hb : c.isAt .kwBegin = true) (hn : ((methodVariables ++ methodBody).read c).problems = []) :
    (methodVariables ++ methodBody).Reads
      ([newSection .varSection d] ++ ((methodVariables ++ methodBody).read c).made)
      ((methodVariables ++ methodBody).read c).rest.ahead := by
  rw [read_append, methodVariables_of_not hv] at hn ⊢
  have hr := read_leaves methodBody c
  have hb' := reads_methodBody hn
  obtain ⟨l, ls, hl, hk⟩ := exists_ahead hb (by decide)
  refine .append (.choose_true (fun m => rfl) ?_) hb'
  dsimp only [List.nil_append]
  rw [hr, hl]
  exact reads_newSection hd fun m =>
    (not_due (by simp [hk, TokenKind.isName]) (by simp [hk]) (by simp [hk]) m ls).2

theorem made_methodBody (hb : c.isAt .kwBegin = true) :
    ∃ b bs, (methodBody.read c).made = b :: bs ∧ b.kind = NodeKind.block ∧ ∀ u ∈ bs, u.kind.isToken := by
  rw [methodBody, read_choose, if_pos hb, read_append]
  refine ⟨_, _, rfl, rfl, fun u hu => ?_⟩
  generalize (block.read c).rest = e at hu
  obtain ⟨m, _ | ⟨l, ls⟩⟩ := e
  all_goals
    simp only [takeIf, read_choose] at hu
    split at hu <;> simp at hu
  rw [hu]
  rfl

theorem made_methodBody_of_not (hb : c.isAt .kwBegin = false) : (methodBody.read c).made = [] := by
  rw [methodBody, read_choose, hb]
  rfl

/-- A production reads trees in the place of others, in front of what follows these, and the one goes
for the other. -/
structure Replaces (R : Follow) (p : Production) (ts us : List Tree) (rest : List Lexeme) : Prop where
  reads : p.Reads us rest
  follow (ls ms : List Lexeme) : R (leavesOf ts ++ ls) (leavesOf us ++ ms)

theorem kinds_variables (hn : ((whileAt atVariable variableDeclaration).read c).problems = []) :
    ∀ u ∈ ((whileAt atVariable variableDeclaration).read c).made, u.kind.isToken = false := by
  obtain ⟨tss, hr, hf, -⟩ := rounds_of_read (fun _ => ahead_of_atVariable)
    (fun _ hd hp => (round_variableDeclaration (n := 0) hd hp).reads) hn
  rw [hf]
  clear hn hf
  generalize ((whileAt atVariable variableDeclaration).read c).rest = e at hr
  induction hr with
  | stop => exact fun _ h => absurd h List.not_mem_nil
  | round _ _ _ _ ih =>
      rw [List.flatten_cons]
      refine List.forall_mem_append.mpr ⟨fun u hu => ?_, ih⟩
      rw [variableDeclaration_eq, read_mark] at hu
      rw [List.mem_singleton.mp hu]
      simp only [Tree.kind, variableKind]
      split <;> rfl

/-- The words and the variables of a section are told apart by their kinds. -/
theorem parts_section {kind : NodeKind} {ws vs : List Tree} (hw : ∀ w ∈ ws, w.kind.isToken)
    (hv : ∀ v ∈ vs, v.kind.isToken = false) (hn : ((varSection kind).read c).problems = [])
    (hm : (sectionWords.read c).made ++
      ((whileAt atVariable variableDeclaration).read (sectionWords.read c).rest).made = ws ++ vs) :
    (sectionWords.read c).made = ws ∧
      ((whileAt atVariable variableDeclaration).read (sectionWords.read c).rest).made = vs := by
  rw [varSection_eq, read_node, read_append] at hn
  exact cut_unique (p := fun u => u.kind.isToken) hm kinds_sectionWords
    (fun v h => kinds_variables (List.append_eq_nil_iff.mp hn).2 v (List.mem_of_mem_head? h)) hw
    fun v h => hv v (List.mem_of_mem_head? h)

/-- Where the variables of a procedure stand there is their word. -/
theorem isAt_var_of_mem (hv : ∃ u ∈ ((methodVariables ++ methodBody).read c).made,
    u.kind = NodeKind.varSection) : c.isAt .kwVar = true := by
  obtain ⟨u, hu, hk⟩ := hv
  by_contra hv
  rw [Bool.not_eq_true] at hv
  rw [read_append, methodVariables_of_not hv, List.nil_append] at hu
  cases hb : c.isAt .kwBegin with
  | false =>
      rw [made_methodBody_of_not hb] at hu
      cases hu
  | true =>
      obtain ⟨b, bs, hm, hbk, hbs⟩ := made_methodBody hb
      rw [hm] at hu
      rcases List.mem_cons.mp hu with rfl | hu
      · rw [hbk] at hk
        cases hk
      · have := hbs _ hu
        rw [hk] at this
        cases this

/-- Where a body stands and no variables do, there is its word. -/
theorem isAt_begin_of_mem {bs : List Tree} (hm : ((methodVariables ++ methodBody).read c).made = bs)
    (hv : ∀ u ∈ bs, u.kind ≠ NodeKind.varSection) (hb : ∃ u ∈ bs, u.kind = NodeKind.block) :
    c.isAt .kwVar = false ∧ c.isAt .kwBegin = true := by
  rw [read_append] at hm
  have hv' : c.isAt .kwVar = false := by
    by_contra hk
    rw [Bool.not_eq_false] at hk
    rw [methodVariables_of_var hk, made_varSection] at hm
    exact hv _ (by rw [← hm]; exact List.mem_cons_self) rfl
  refine ⟨hv', ?_⟩
  by_contra hk
  rw [Bool.not_eq_true] at hk
  rw [methodVariables_of_not hv', made_methodBody_of_not hk] at hm
  obtain ⟨u, hu, -⟩ := hb
  rw [← hm] at hu
  cases hu

section Body

variable {hs cs' : List Tree} (hn : ((methodVariables ++ methodBody).read c).problems = [])
  (hk : ∀ u ∈ hs, u.kind ∉ bodyKinds)

include hk

theorem kind_ne_of_head {kind : NodeKind} (hb : .node kind ∈ bodyKinds) : ∀ u ∈ hs, u.kind ≠ .node kind :=
  fun u hu h => hk u hu (h ▸ hb)

/-- What has the kind of the variables or of the body does not stand in front of them. -/
theorem mem_body_of_kind {kind : NodeKind} (hb : .node kind ∈ bodyKinds) {us rs : List Tree} {r : Tree}
    (hr : r.kind = .node kind) (h : hs ++ ((methodVariables ++ methodBody).read c).made = us ++ r :: rs) :
    r ∈ ((methodVariables ++ methodBody).read c).made := by
  have hm : r ∈ hs ++ ((methodVariables ++ methodBody).read c).made := by
    rw [h]
    exact List.mem_append_right _ List.mem_cons_self
  exact (List.mem_append.mp hm).resolve_left fun hm => kind_ne_of_head hk hb r hm hr

include hn

theorem reads_body_extended (hd : Declares d) {hs' ws as bs rs : List Tree}
    (hh : ∀ u ∈ hs', u.kind ≠ NodeKind.varSection) (hw : ∀ w ∈ ws, w.kind.isToken)
    (ha : ∀ a ∈ as ++ bs, a.kind.isToken = false)
    (hcs : hs ++ ((methodVariables ++ methodBody).read c).made =
      hs' ++ .node NodeKind.varSection (ws ++ (as ++ bs)) :: rs) :
    ∃ us, hs' ++ .node NodeKind.varSection (ws ++ (as ++ d :: bs)) :: rs = hs ++ us ∧
      HeadEnd c.ahead (leavesOf us ++ ((methodVariables ++ methodBody).read c).rest.ahead) ∧
      (methodVariables ++ methodBody).Reads us ((methodVariables ++ methodBody).read c).rest.ahead := by
  have hv : c.isAt .kwVar = true := isAt_var_of_mem ⟨_, mem_body_of_kind hk (by decide) rfl hcs, rfl⟩
  have hm : ((methodVariables ++ methodBody).read c).made =
      ((varSection .varSection).read c).made ++ (methodBody.read (methodVariables.read c).rest).made := by
    rw [read_append, methodVariables_of_var hv]
  rw [hm, made_varSection] at hcs
  -- Both sides are cut at their first section, so the sections are the same one.
  obtain ⟨rfl, hcut⟩ := cut_unique (p := fun u : Tree => u.kind != .node .varSection) hcs
    (fun u hu => by simpa using kind_ne_of_head hk (by decide) u hu)
    (fun u hu => by rw [← Option.mem_some.mp hu]; rfl) (fun u hu => by simpa using hh u hu)
    (fun u hu => by rw [← Option.mem_some.mp hu]; rfl)
  obtain ⟨hsec, rfl⟩ := List.cons.inj hcut
  injection hsec with _ hsec
  have hns : ((varSection .varSection).read c).problems = [] := by
    rw [read_append, methodVariables_of_var hv] at hn
    exact (List.append_eq_nil_iff.mp hn).1
  obtain ⟨rfl, hvs⟩ := parts_section hw ha hns hsec
  obtain ⟨l, us, ls, hlk, hl, hu, hr⟩ := reads_extendedBody hd hv hn hvs
  refine ⟨_, rfl, ?_, hr⟩
  simp only [hl, List.cons_append, leavesOf, leaves, leavesOf_append, hu]
  exact headEnd_body (.inl hlk) (.inl hlk) _ _

theorem reads_body_opened (hd : Declares d) {hs' rs : List Tree} {r : Tree}
    (hv : ∀ u ∈ hs' ++ r :: rs, u.kind ≠ NodeKind.varSection) (hh : ∀ u ∈ hs', u.kind ≠ NodeKind.block)
    (hr : r.kind = NodeKind.block)
    (hcs : hs ++ ((methodVariables ++ methodBody).read c).made = hs' ++ r :: rs) :
    ∃ us, hs' ++ newSection .varSection d :: r :: rs = hs ++ us ∧
      HeadEnd c.ahead (leavesOf us ++ ((methodVariables ++ methodBody).read c).rest.ahead) ∧
      (methodVariables ++ methodBody).Reads us ((methodVariables ++ methodBody).read c).rest.ahead := by
  obtain ⟨hnv, hbegin⟩ := isAt_begin_of_mem rfl (fun u hu => hv u (by
    rw [← hcs]
    exact List.mem_append_right _ hu)) ⟨_, mem_body_of_kind hk (by decide) hr hcs, hr⟩
  have hm : ((methodVariables ++ methodBody).read c).made = (methodBody.read c).made := by
    rw [read_append, methodVariables_of_not hnv]
    rfl
  obtain ⟨b, bs, hbm, hbk, -⟩ := made_methodBody hbegin
  rw [hm, hbm] at hcs
  -- Both sides are cut at their first block.
  obtain ⟨rfl, hcut⟩ := cut_unique (p := fun u : Tree => u.kind != .node .block) hcs
    (fun u hu => by simpa using kind_ne_of_head hk (by decide) u hu)
    (fun u hu => by rw [← Option.mem_some.mp hu]; simp [hbk])
    (fun u hu => by simpa using hh u hu)
    (fun u hu => by rw [← Option.mem_some.mp hu]; simp [hr])
  have hread := reads_openedBody hd hnv hbegin hn
  rw [hm, hbm, hcut] at hread
  obtain ⟨l, ls, hl, hlk⟩ := exists_ahead hbegin (by decide)
  refine ⟨_, rfl, ?_, hread⟩
  rw [hl]
  exact headEnd_body (.inr hlk) (.inl rfl) _ _

/-- The variables and the body of a procedure are read with one more variable. -/
theorem reads_body_declared (hd : Declares d)
    (h : Declared .varSection (· == NodeKind.block) d
      (hs ++ ((methodVariables ++ methodBody).read c).made) cs') :
    ∃ us, cs' = hs ++ us ∧
      HeadEnd c.ahead (leavesOf us ++ ((methodVariables ++ methodBody).read c).rest.ahead) ∧
      (methodVariables ++ methodBody).Reads us ((methodVariables ++ methodBody).read c).rest.ahead := by
  generalize hcs : hs ++ ((methodVariables ++ methodBody).read c).made = cs at h
  cases h with
  | extended hh hw ha => exact reads_body_extended hn hk hd hh hw ha hcs
  | opened hv hh hr =>
      exact reads_body_opened hn hk hd hv (fun u hu => by simpa using hh u hu) (by simpa using hr) hcs

end Body

theorem of_singleton {j k : Kind} {us vs : List Tree} (h : [Tree.node j us] = [Tree.node k vs]) :
    j = k ∧ us = vs := by
  cases h
  exact ⟨rfl, rfl⟩

/-- Where a procedure is read instead of another one that starts alike, it goes for the other one. -/
theorem replaces_of_reads {t t' : Tree} (hc : AtMethod c) (hn : (method.read c).problems = [])
    (hm : (method.read c).made = [t]) (ha : ∀ ls ms, Alike id (leavesOf [t] ++ ls) (leavesOf [t'] ++ ms))
    (hr : method.Reads [t'] (method.read c).rest.ahead) :
    Replaces MemberEnd method [t] [t'] (method.read c).rest.ahead := by
  refine ⟨hr, fun ls ms => ?_⟩
  obtain ⟨hm', hp'⟩ := hr.outcome 0
  have hc' : AtMethod ⟨0, leavesOf [t'] ++ (method.read c).rest.ahead⟩ := by
    have hk := settled_kind c ⟨0, leavesOf [t'] ++ (method.read c).rest.ahead⟩ (by
      rw [← read_leaves method c, hm]
      exact ha _ _)
    rwa [AtMethod, ← hk]
  have hold := not_due_method hc hn
  have hnew := not_due_method hc' hp'
  rw [hm'] at hnew
  rw [hm] at hold
  exact ⟨ha ls ms, fun i j => (hold i ls).1.trans (hnew j ms).1.symm,
    fun i j => (hold i ls).2.trans (hnew j ms).2.symm⟩

/-- A procedure is read with one more variable. -/
theorem replaces_method (hd : Declares d) (hc : AtMethod c) (hn : (method.read c).problems = [])
    {k : Kind} {cs cs' : List Tree} (hm : (method.read c).made = [.node k cs])
    (h : Declared .varSection (· == NodeKind.block) d cs cs') :
    Replaces MemberEnd method [.node k cs] [.node k cs'] (method.read c).rest.ahead := by
  obtain ⟨k', hs, e, H⟩ := exists_readsMethod hn
  obtain ⟨rfl, rfl⟩ := of_singleton (H.made.symm.trans hm)
  obtain ⟨us, rfl, ha, hb⟩ := reads_body_declared H.problems H.kinds hd h
  rw [← H.rest] at ha hb
  refine replaces_of_reads hc hn hm (fun ls ms => ?_) (H.reads us _ ha hb)
  simp only [leavesOf, leaves, List.append_nil, leavesOf_append, List.append_assoc]
  exact Alike.append H.opens _ _

/-! ## Other procedures in place of some -/

/-- Wherever the one procedure is read, the other one is read in its place. -/
structure Exchanges (t t' : Tree) : Prop where
  isMethod : t.kind.isMethod
  leaves : t'.leaves ≠ []
  length : t.leaves.length ≤ t'.leaves.length
  replaces {c : Cursor} : AtMethod c → (method.read c).problems = [] → (method.read c).made = [t] →
    Replaces MemberEnd method [t] [t'] (method.read c).rest.ahead

section Scope

variable {k : Kind} {cs cs' : List Tree}

theorem leaves_declared (hd : Declares d) {kind : NodeKind} {stops : Kind → Bool}
    (h : Declared kind stops d cs cs') : (Tree.node k cs').leaves ≠ [] := by
  have hl := reads_leaves hd
  rw [leaves]
  cases h with
  | extended =>
      simp only [leavesOf_append, leavesOf, leaves, List.append_nil] at hl ⊢
      simp [hl]
  | opened =>
      simp only [newSection, leavesOf_append, leavesOf, leaves, List.append_nil] at hl ⊢
      simp

theorem length_declared {kind : NodeKind} {stops : Kind → Bool} (h : Declared kind stops d cs cs') :
    (leavesOf cs).length ≤ (leavesOf cs').length := by
  cases h <;> simp only [newSection, leavesOf_append, leavesOf, leaves, List.length_append] <;> omega

/-- A procedure is exchanged for one with one more variable. -/
theorem exchanges_declared (hd : Declares d) (hk : k.isMethod)
    (h : Declared .varSection (· == NodeKind.block) d cs cs') : Exchanges (.node k cs) (.node k cs') :=
  ⟨hk, leaves_declared hd h, length_declared h, fun hc hn hm => replaces_method hd hc hn hm h⟩

end Scope

end AlRefactor.Grammar
