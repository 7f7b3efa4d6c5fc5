import AlRefactor.Proofs.Grammar.Soundness

/-!
# Declarations, members and files that are read without a problem

What is looked at ahead of a declaration is what its attributes leave to be read, so a variable
starts with its name where a variable is found, and a stretch in brackets is closed where anything
is read behind it.
-/

namespace AlRefactor.Grammar

open Production AlRefactor.Tree

variable {c : Cursor} {n : Nat}

/-! ## Stretches in brackets -/

theorem made_takes (n : Nat) (c : Cursor) :
    ((takes n).read c).made = (c.ahead.take n).map Tree.leaf ∧ ((takes n).read c).problems = [] := by
  induction n generalizing c with
  | zero => exact ⟨rfl, rfl⟩
  | succ n ih =>
      obtain ⟨m, ls⟩ := c
      rw [takes, read_append, (ih _).1, (ih _).2]
      cases ls <;> simp

/-- A stretch that does not go to the end ends with a closing bracket. -/
theorem balancedLength_closed (d : Nat) (ls : List Lexeme) (h : (balancedLength d ls).2 = false)
    (hl : (balancedLength d ls).1 < ls.length) :
    ∃ inside l, ls.take (balancedLength d ls).1 = inside ++ [l] ∧
      l.kind ∈ [.rParen, .rBracket] := by
  fun_induction balancedLength d ls with
  | case1 => exact absurd hl (Nat.lt_irrefl 0)
  | case2 d l ls _ r ih | case3 d l ls _ r ih | case5 d l ls _ _ r ih | case7 d l ls _ _ r ih
  | case10 d l ls _ _ _ _ _ _ _ ih =>
      obtain ⟨inside, m, hi, hm⟩ := ih h (Nat.lt_of_succ_lt_succ hl)
      exact ⟨l :: inside, m, congrArg (l :: ·) hi, hm⟩
  | case4 d l ls hk | case6 d l ls hk => exact ⟨[], l, rfl, by simp [hk]⟩
  | case8 | case9 => cases h

theorem everywhere_leaves (P : Kind → List Tree → Prop) (ls : List Lexeme) :
    EverywhereAll P (ls.map Tree.leaf) := by
  induction ls with
  | nil => exact trivial
  | cons l ls ih => exact ⟨trivial, ih⟩

theorem leaves_mem_star (ls : List Lexeme) :
    (ls.map Tree.leaf).map Tree.symbol ∈ (Pattern.anyToken).star.matches' := by
  induction ls with
  | nil => exact Pattern.nil_mem_star
  | cons l ls ih =>
      have hl : [Symbol.token l.kind] ∈ Pattern.anyToken.matches' :=
        Pattern.mem_tokens.mpr ⟨_, l.kind.mem_all, rfl⟩
      exact Pattern.append_mem_star hl ih

/-- A stretch that is read without a problem and has something behind it is closed there. -/
theorem made_balanced {m : Nat} {l : Lexeme} {ls : List Lexeme}
    (hl : l.kind = .lBracket ∨ l.kind = .lParen) (hn : (balanced.read ⟨m, l :: ls⟩).problems = [])
    (hr : (balanced.read ⟨m, l :: ls⟩).rest.ahead ≠ []) :
    (balanced.read ⟨m, l :: ls⟩).made = (l :: ls.take (balancedLength 1 ls).1).map Tree.leaf ∧
      (balancedLength 1 ls).2 = false ∧ (balancedLength 1 ls).1 < ls.length := by
  have hb : balancedLength 0 (l :: ls) =
      ((balancedLength 1 ls).1 + 1, (balancedLength 1 ls).2) := by
    rcases hl with hl | hl <;> simp [balancedLength, hl]
  have hu : (balancedLength 1 ls).2 = false := by
    refine Bool.eq_false_iff.mpr fun hu => ?_
    simp [balanced, hb, hu] at hn
  refine ⟨by simp [balanced, hb, hu, made_takes], hu, ?_⟩
  simp only [balanced, read_look, hb, hu, read_append] at hr
  simpa [rest_takes, hb, hu] using hr

/-- A stretch behind which something is left to be read is closed. -/
theorem yields_stretch {opening : TokenKind} (ho : opening = .lBracket ∨ opening = .lParen)
    (hc : c.kind = opening) (hr : (balanced.read c).rest.ahead ≠ []) :
    balanced.Yields c (.stretch opening) := by
  obtain ⟨m, ls⟩ := c
  cases ls with
  | nil => rcases ho with rfl | rfl <;> cases hc
  | cons l ls =>
      have hc : l.kind = opening := hc
      intro hn
      obtain ⟨hm, hu, hl⟩ := made_balanced (hc.symm ▸ ho) hn hr
      obtain ⟨inside, q, hi, hq⟩ := balancedLength_closed 1 ls hu hl
      rw [hm, hi]
      refine ⟨everywhere_leaves _ _, ?_⟩
      have hs := Pattern.append_mem (Pattern.append_mem ((Pattern.mem_token (k := opening)).mpr rfl)
        (leaves_mem_star inside)) (Pattern.mem_tokens.mpr ⟨q.kind, hq, rfl⟩)
      simpa [Pattern.stretch, Tree.symbol, hc] using hs

/-! ## Attributes -/

theorem afterAttributes_succ (d : Nat) (ls : List Lexeme)
    (h : (balancedLength (d + 1) ls).2 = false) :
    afterAttributes (d + 1) ls = afterAttributes 0 (ls.drop (balancedLength (d + 1) ls).1) := by
  induction ls generalizing d with
  | nil => rfl
  | cons l ls ih =>
      rw [balancedLength] at h ⊢
      split at h <;> rename_i hk
      · simp [afterAttributes, hk, ih _ h]
      · simp [afterAttributes, hk, ih _ h]
      · cases d with
        | zero => simp [afterAttributes, hk]
        | succ d => simpa [afterAttributes, hk] using ih d (by simpa using h)
      · cases d with
        | zero => simp [afterAttributes, hk]
        | succ d => simpa [afterAttributes, hk] using ih d (by simpa using h)
      · cases h
      · cases h
      · simpa [afterAttributes, *] using ih d h

theorem afterAttributes_balanced (hc : c.kind = .lBracket) (h : (balanced.read c).problems = []) :
    afterAttributes 0 c.ahead = afterAttributes 0 (balanced.read c).rest.ahead := by
  obtain ⟨m, ls⟩ := c
  cases ls with
  | nil => cases hc
  | cons l ls =>
      have hc : l.kind = .lBracket := hc
      have hb : balancedLength 0 (l :: ls) =
          ((balancedLength 1 ls).1 + 1, (balancedLength 1 ls).2) := by
        simp [balancedLength, hc]
      cases hu : (balancedLength 1 ls).2 with
      | true => simp [balanced, hb, hu] at h
      | false =>
          simp [balanced, hb, hu, rest_takes, afterAttributes, hc, afterAttributes_succ 0 ls hu]

theorem rest_rounds_attributes (n : Nat) (c : Cursor) (hn : c.ahead.length ≤ n)
    (h : (Assembly.trees.rounds (·.isAt .lBracket)
      (node NodeKind.memberAttribute balanced).read n c).problems = []) :
    (Assembly.trees.rounds (·.isAt .lBracket)
      (node NodeKind.memberAttribute balanced).read n c).rest.ahead = afterAttributes 0 c.ahead := by
  induction n generalizing c with
  | zero =>
      have hc : c.ahead = [] := List.eq_nil_of_length_eq_zero (Nat.le_zero.mp hn)
      simp [Assembly.rounds, Assembly.idle, hc, afterAttributes]
  | succ n ih =>
      simp only [Assembly.rounds] at h ⊢
      split
      · rename_i ht
        rw [if_pos ht] at h
        obtain ⟨h, h'⟩ := List.append_eq_nil_iff.mp h
        have hk := kind_of_isAt ht
        have ha := balanced_advances c (.inl hk)
        simp only [read_node] at h
        rw [afterAttributes_balanced hk h]
        exact ih _ (by simp only [read_node]; omega) h'
      · rename_i ht
        obtain ⟨m, ls⟩ := c
        cases ls with
        | nil => rfl
        | cons l ls =>
            have hk : l.kind ≠ .lBracket := by simpa [Cursor.isAt, Cursor.kind, Cursor.peek] using ht
            simp [Assembly.idle, afterAttributes]

theorem rest_attributes (h : (attributes.read c).problems = []) :
    (attributes.read c).rest.ahead = afterAttributes 0 c.ahead :=
  rest_rounds_attributes _ c (Nat.le_refl _) h

/-- Attributes are closed where anything is read behind them. -/
theorem yields_attributes (hr : (attributes.read c).rest.ahead ≠ []) :
    attributes.Yields c .attributes := by
  refine .rounds fun d hd hl ht =>
    .node (yields_stretch (.inl rfl) (kind_of_isAt ht) fun hn => ?_) fun _ => rfl
  rw [read_node, hn] at hl
  exact hr (List.eq_nil_of_length_eq_zero (Nat.le_zero.mp hl))

/-! ## Types -/

theorem yieldsTokens_typeTail (word : Text) {element : Production} (h : element.YieldsTokens) :
    (typeTail word element).YieldsTokens := by
  have hb : (choose (·.isAt .lBracket) balanced skip).YieldsTokens := .choose .balanced .skip
  have hp : (choose (·.isAt .lParen) balanced skip).YieldsTokens := .choose .balanced .skip
  unfold typeTail
  repeat' split
  · exact .choose (.append .take h) .skip
  · exact .choose (.append .take hb) .skip
  · exact .clause
  · exact .append (.append (.choose .take .skip) (.choose .take .skip))
      (.choose (.append .take hp) .skip)
  · exact .skip

theorem yieldsTokens_typeUpTo (n : Nat) : (typeUpTo n).YieldsTokens := by
  induction n with
  | zero => exact .skip
  | succ n ih =>
      refine fun c => .look ?_
      split
      · exact YieldsTokens.append (.append .take (.choose .balanced .skip))
          (yieldsTokens_typeTail _ ih) c
      · exact .report

theorem yields_typeReference (c : Cursor) : typeReference.Yields c (.node .typeReference) := by
  refine .node (.look (.look ?_)) fun _ => rfl
  split
  · rename_i hn
    have hm : c.kind ∈ [.ident, .quotedIdent] := by
      revert hn; cases c.kind <;> decide
    have hb : (choose (·.isAt .lBracket) balanced skip).YieldsTokens := .choose .balanced .skip
    refine (Yields.append (.append (.taking hm (by decide)) (hb _))
      (yieldsTokens_typeTail _ (yieldsTokens_typeUpTo _) _)).mono fun w hw => ?_
    obtain ⟨u, hu, _, ⟨v, hv, x, hx, rfl⟩, rfl⟩ := Pattern.mem_mul_assoc.mp hw
    exact Pattern.append_mem hu (Pattern.append_star hv hx)
  · exact .report

theorem yields_typed (c : Cursor) : typed.Yields c .typed :=
  yields_requireThen nofun yields_typeReference

/-! ## Variables -/

theorem ahead_ne_nil (h : c.kind ≠ .eof) : c.ahead ≠ [] :=
  fun ha => h (by simp [Cursor.kind, Cursor.peek, ha])

theorem kind_rest_take (c : Cursor) : (take.read c).rest.kind = c.peek 1 := by
  obtain ⟨m, ls⟩ := c
  cases ls <;> simp [Cursor.kind, Cursor.peek]

theorem kind_rest_name (c : Cursor) : (name.read c).rest.kind = c.peek 1 := by
  rw [name, read_node]; exact kind_rest_take c

theorem yields_listedName (h : c.kind.isName) : listedName.Yields c .listedName :=
  .node (yields_name (by simp [h])) fun _ => rfl

/-- Behind a first name and a comma there is at least one other name. -/
theorem yields_furtherNames (hc : c.kind = .comma) : furtherNames.Yields c
    (.token .comma * .listedName * (Pattern.token .comma * Pattern.listedName).star) := by
  have hp (d : Cursor) (hd : (d.isAt .comma && (d.peek 1).isName) = true) :
      (take ++ listedName).Yields d (.token .comma * .listedName) := by
    obtain ⟨hk, hn⟩ := Bool.and_eq_true_iff.mp hd
    exact .append (.take (kind_of_isAt hk) nofun) (yields_listedName (kind_rest_take d ▸ hn))
  have hm (d : Cursor) : (takeThen .comma (report .missingVariableName)).Yields d 1 :=
    .choose (fun _ hn => absurd hn (by simp)) fun _ => .skip
  by_cases ht : (c.peek 1).isName
  · have hw := Yields.whileAt_cons (ahead_ne_nil (by rw [hc]; nofun))
      (by simp [Cursor.isAt, hc, ht]) fun d _ => hp d
    exact (hw.append (hm _)).mono fun w hw => Pattern.mem_mul_one.mp hw
  · intro hn
    rw [furtherNames, read_append, read_whileAt_of_not _ _ (by simp [ht])] at hn
    simp [takeThen, Cursor.isAt, hc] at hn

/-- What is found to be a variable starts with a name behind its attributes. -/
theorem rest_attributes_of_atVariable (h : atVariable c) (hp : (attributes.read c).problems = []) :
    (attributes.read c).rest.ahead ≠ [] ∧ (attributes.read c).rest.kind.isName ∧
      ((attributes.read c).rest.peek 1 = .colon ∨ (attributes.read c).rest.peek 1 = .comma) := by
  have hr := rest_attributes hp
  unfold atVariable at h
  split at h
  · rename_i l m ls he
    rw [he] at hr
    simpa [Cursor.kind, Cursor.peek, hr] using h
  · cases h

theorem yields_variableDeclaration (h : atVariable c) : variableDeclaration.Yields c
    (.nodes [.variableDeclaration, .variableListDeclaration]) := by
  intro hn
  have ha : (attributes.read c).problems = [] := (List.append_eq_nil_iff.mp hn).1
  obtain ⟨hr, hk, hp⟩ := rest_attributes_of_atVariable h ha
  refine (?_ : variableDeclaration.Yields c _) hn
  generalize hd : (attributes.read c).rest = d at hk hp
  by_cases hc : d.peek 1 = .comma
  · have hl : (listedName.read d).rest.kind = .comma := by
      rw [listedName, read_node]; exact kind_rest_name d ▸ hc
    have hq : (choose (·.peek 1 == .comma) (listedName ++ furtherNames) name ++ typed ++
        require .semicolon).Yields d (.listedName *
          (.token .comma * .listedName * (Pattern.token .comma * Pattern.listedName).star) *
          .typed * .token .semicolon) :=
      .append (.append (.choose (fun _ => .append (yields_listedName hk) (yields_furtherNames hl))
        fun h => by simp [hc] at h) (yields_typed _)) (yields_require (by decide))
    exact .among (.mark_node .variableListDeclaration (yields_attributes hr) (hd ▸ hq)
      (by simp [hd, hc]) rfl fun _ => rfl) (by decide)
  · have hq : (choose (·.peek 1 == .comma) (listedName ++ furtherNames) name ++ typed ++
        require .semicolon).Yields d (.node .identifierName * .typed * .token .semicolon) :=
      .append (.append (.choose (fun h => by simp [hc] at h) fun _ => yields_name (by simp [hk]))
        (yields_typed _)) (yields_require (by decide))
    exact .among (.mark_node .variableDeclaration (yields_attributes hr) (hd ▸ hq) (by simp [hd, hc]) rfl
      fun _ => rfl) (by decide)

theorem yields_variables (c : Cursor) :
    (whileAt atVariable variableDeclaration).Yields c .variableList :=
  .whileAt fun _ _ => yields_variableDeclaration

theorem yields_varSection (hc : c.kind = .kwVar) :
    (varSection .varSection).Yields c (.node .varSection) := by
  have hp : (takeIf .kwProtected).Yields c 1 :=
    .choose (fun h => by simp [Cursor.isAt, hc] at h) fun _ => .skip
  have hk : ((takeIf .kwProtected).read c).rest.kind = .kwVar := by
    simp [takeIf, Cursor.isAt, hc]
  refine .node (Yields.mono (.append (.append hp (.take hk (by decide))) (yields_variables _))
    fun w hw => ?_) fun _ => rfl
  obtain ⟨_, ⟨_, rfl, u, hu, rfl⟩, v, hv, rfl⟩ := hw
  exact Pattern.append_mem hu hv

/-- Behind `protected`, if it is there, stands `var`. -/
theorem kind_rest_protected (hc : c.kind = .kwVar ∨ c.kind = .kwProtected ∧ c.peek 1 = .kwVar) :
    ((takeIf .kwProtected).read c).rest.kind = .kwVar := by
  rcases hc with hc | ⟨hc, hp⟩
  · simp [takeIf, Cursor.isAt, hc]
  · simp [takeIf, Cursor.isAt, hc, kind_rest_take, hp]

theorem yields_globalVarSection (hc : c.kind = .kwVar ∨ c.kind = .kwProtected ∧ c.peek 1 = .kwVar) :
    (varSection .globalVarSection).Yields c (.node .globalVarSection) := by
  have hk := kind_rest_protected hc
  exact .node (.append (.append (yields_takeIf (by decide)) (.take hk (by decide))) (yields_variables _))
    fun _ => rfl

/-! ## Parameters and return values -/

theorem yields_parameter (c : Cursor) : parameter.Yields c (.node .parameter) :=
  .node (.append (.append (yields_takeIf nofun) (yields_nameOr _)) (yields_typed _)) fun _ => rfl

theorem yields_noParameter (c : Cursor) : noParameter.Yields c 1 :=
  .choose (fun _ => .skip) fun _ => .report

theorem yields_parameters (c : Cursor) : parameters.Yields c .parameters := by
  have hm : (whileAt (fun c => c.isAt .semicolon && (c.peek 1 == .kwVar || (c.peek 1).isName))
      (take ++ parameter)).Yields (parameter.read c).rest
      (Pattern.token .semicolon * Pattern.node .parameter).star :=
    .whileAt fun d _ hd => .append (.take (kind_of_isAt (Bool.and_eq_true_iff.mp hd).1) nofun)
      (yields_parameter _)
  have hl (d : Cursor) : (takeThen .semicolon noParameter).Yields d
      (.optional (.token .semicolon)) :=
    (yields_takeThen (k := .semicolon) nofun yields_noParameter).mono fun w hw =>
      hw.imp_left Pattern.mem_mul_one.mp
  exact .append (.append (yields_parameter c) hm) (hl _)

theorem yields_parameterList (hc : c.kind = .lParen) :
    parameterList.Yields c (.node .parameterList) :=
  .node (.append (.append (.take hc nofun) (.choose (fun _ => (yields_parameters _).mono fun _ => .inl)
    fun _ => (yields_noParameter _).mono fun _ => .inr)) (yields_require nofun)) fun _ => rfl

/-- Behind the name of a return value, if it has one, there is a colon. -/
theorem kind_rest_returnName (hc : atReturnValue c) :
    ((choose (·.kind.isName) name skip).read c).rest.kind = .colon := by
  by_cases hn : c.kind.isName
  · have hp : c.isAt .colon = false := by
      refine Bool.eq_false_iff.mpr fun h => ?_
      simp [kind_of_isAt h, TokenKind.isName] at hn
    simpa [hn, kind_rest_name, atReturnValue, hp] using hc
  · simpa [hn, atReturnValue, Cursor.isAt] using hc

theorem yields_returnValue (hc : atReturnValue c) : returnValue.Yields c (.node .returnValue) := by
  have hk := kind_rest_returnName hc
  exact .node (.append (.append (.optionalIf fun h => yields_name (by simp [h])) (.take hk (by decide)))
    (yields_typeReference _)) fun _ => rfl

/-! ## Procedures and triggers -/

theorem yields_methodRest (c : Cursor) : methodRest.Yields c
    (.node .identifierName * .node .parameterList * .optional (.node .returnValue) *
      .optional (.token .semicolon) * .optional (.node .varSection) *
      .optional (.node .block * .optional (.token .semicolon))) := by
  refine .append (.append (.append (.append (.append (yields_nameOr _) ?_) ?_)
    (yields_takeIf nofun)) ?_) ?_
  · exact .choose (fun h => yields_parameterList (kind_of_isAt h)) fun _ => .report
  · exact .optionalIf yields_returnValue
  · exact .optionalIf fun h => yields_varSection (kind_of_isAt h)
  · exact .optionalIf fun h => .append (yields_body (kind_of_isAt h)) (yields_takeIf nofun)

theorem yields_methodTail {k : TokenKind} (hc : c.kind = k) (hk : k = .kwTrigger ∨ k = .kwProcedure) :
    methodTail.Yields c (.token k *
      (.node .identifierName * .node .parameterList * .optional (.node .returnValue) *
        .optional (.token .semicolon) * .optional (.node .varSection) *
        .optional (.node .block * .optional (.token .semicolon)))) := by
  refine .choose (fun _ => .append (.take hc ?_) (yields_methodRest _)) fun _ => .report
  rcases hk with rfl | rfl <;> nofun

/-- Behind attributes and modifiers there is a keyword, so the attributes are closed. -/
theorem yields_methodStart (h : (methodStart.read c).rest.kind ≠ .eof) : methodStart.Yields c
    (.attributes * (Pattern.tokens [.kwLocal, .kwInternal, .kwProtected]).star) := by
  refine .append (yields_attributes fun ha => ?_) <| .whileAt fun d _ hd =>
    .taking (by revert hd; cases d.kind <;> decide) (by decide)
  have hl := length_rest_le (whileAt (·.kind.isAccessModifier) take) (attributes.read c).rest
  rw [ha] at hl
  exact ahead_ne_nil h (List.eq_nil_of_length_eq_zero (Nat.le_zero.mp hl))

theorem yields_method (c : Cursor) :
    method.Yields c (.nodes [.methodDeclaration, .triggerDeclaration]) := by
  by_cases ht : (methodStart.read c).rest.kind = .kwTrigger
  · exact .among (.mark_node .triggerDeclaration (yields_methodStart (by simp [ht]))
      (yields_methodTail ht (.inl rfl)) (by simp [Cursor.isAt, ht]) rfl fun _ => rfl) (by decide)
  · by_cases hp : (methodStart.read c).rest.kind = .kwProcedure
    · exact .among (.mark_node .methodDeclaration (yields_methodStart (by simp [hp]))
        (yields_methodTail hp (.inr rfl)) (by simp [Cursor.isAt, hp]) rfl fun _ => rfl) (by decide)
    · intro hn
      rw [method, read_mark] at hn
      have hm := (List.append_eq_nil_iff.mp hn).2
      simp [methodTail, Cursor.atAny, ht, hp] at hm

/-! ## Members -/

theorem yields_property (hc : c.kind.isName) (hp : c.peek 1 = .eq) :
    property.Yields c (.node .propertyDeclaration) := by
  have hk : (name.read c).rest.kind = .eq := kind_rest_name c ▸ hp
  exact .node (.append (.append (.append (yields_name (by simp [hc])) (.take hk nofun))
    (YieldsTokens.clause _)) (yields_require nofun)) fun _ => rfl

theorem yields_sectionArguments (h : (sectionArguments.read c).rest.ahead ≠ []) :
    sectionArguments.Yields c (.optional (.node .sectionArguments)) := by
  refine .optionalIf fun ht => .node (yields_stretch (.inr rfl) (kind_of_isAt ht) ?_) fun _ => rfl
  simpa [sectionArguments, ht] using h

section Member

variable {inner : Production} (h : inner.YieldsBelow n .member)
include h

theorem yields_memberList (hc : c.kind = .lBrace) (hn : c.ahead.length ≤ n) :
    (memberList inner).Yields c .memberList := by
  have hb : take.Begins c (.token .lBrace) := .take hc nofun
  have hm : (whileAt (fun c => !(c.isAt .rBrace || c.atEnd)) inner).YieldsBelow c.ahead.length
      Pattern.member.star := .whileAt fun d hd _ => h d (Nat.lt_of_lt_of_le hd hn)
  have hr := hb.append (hm.append fun _ _ => yields_require (k := .rBrace) nofun)
  exact .choose (fun _ => hr.yields) fun hf => by simp [Cursor.isAt, hc] at hf

theorem yields_sectionBody (hn : c.ahead.length ≤ n) : (sectionBody inner).Yields c
    (.memberList + .token .semicolon) :=
  .choose (fun hb => (yields_memberList h (kind_of_isAt hb) hn).mono fun _ => Or.inl) fun _ =>
    (yields_expect (k := .semicolon) nofun _).mono fun _ => Or.inr

theorem yields_sectionOf (hc : c.kind.isName) (hn : c.ahead.length ≤ n) :
    (sectionOf inner).Yields c (.node .sectionDeclaration) := by
  have hl := length_rest_le (name ++ sectionArguments) c
  by_cases he : ((name ++ sectionArguments).read c).rest.ahead = []
  · -- A section that is cut off before its body has a problem there.
    intro hp
    rw [sectionOf, read_node] at hp
    have hb : ((sectionBody inner).read ((name ++ sectionArguments).read c).rest).problems = [] :=
      (List.append_eq_nil_iff.mp hp).2
    generalize ((name ++ sectionArguments).read c).rest = d at he hb
    simp [sectionBody, expect, Cursor.isAt, Cursor.kind, Cursor.peek, he] at hb
  · exact .node (.append (.append (yields_name (by simp [hc])) (yields_sectionArguments he))
      (yields_sectionBody h (Nat.le_trans hl hn))) fun _ => rfl

theorem yields_memberStep (hn : c.ahead.length ≤ n) : (memberStep inner).Yields c .member := by
  have hm : method.Yields c .member := (yields_method c).mono fun w hw => by
    obtain ⟨k, hk, rfl⟩ := Pattern.mem_nodes.mp hw
    exact Pattern.mem_oneOf.mpr ⟨.node k, by revert hk; cases k <;> decide, rfl⟩
  refine .look ?_
  split
  · rename_i hc; exact .inList (yields_globalVarSection (.inl hc)) (by decide)
  iterate 5 exact hm
  · rename_i hc
    split
    · rename_i hp
      exact .inList (yields_globalVarSection (.inr ⟨hc, by simpa using hp⟩)) (by decide)
    · exact hm
  · rename_i hc; exact .inList (.take hc nofun) (by decide)
  · split
    · rename_i hp
      simp only [Bool.and_eq_true, beq_iff_eq] at hp
      exact .inList (yields_property hp.1 hp.2) (by decide)
    · split
      · rename_i hp
        simp only [Bool.and_eq_true, beq_iff_eq] at hp
        exact .inList (yields_sectionOf h (by simp [hp.1, TokenKind.isName]) hn) (by decide)
      · exact fun hn => absurd hn (by simp)

end Member

theorem yields_memberUpTo (n : Nat) : (memberUpTo n).YieldsBelow n .member := by
  induction n with
  | zero => exact fun c hc => absurd hc (Nat.not_lt_zero _)
  | succ n ih => exact fun c hc => .look (yields_memberStep ih (Nat.le_of_lt_succ hc))

theorem yields_member (c : Cursor) : member.Yields c .member :=
  .look (yields_memberUpTo _ c (Nat.lt_succ_self _))

/-! ## Objects -/

theorem yields_extendsClause (hc : c.kind = .kwExtends) :
    extendsClause.Yields c (.node .extendsClause) :=
  .node (.append (.take hc nofun) (yields_nameOr _)) fun _ => rfl

theorem yields_interfaces (hc : c.kind.isName) : interfaces.Yields c
    (.node .identifierName * (Pattern.token .comma * Pattern.node .identifierName).star) := by
  have hw : (whileAt (fun c => c.isAt .comma && (c.peek 1).isName) (take ++ name)).Yields
      (name.read c).rest (Pattern.token .comma * Pattern.node .identifierName).star := by
    refine .whileAt fun d _ hd => ?_
    obtain ⟨hk, hn⟩ := Bool.and_eq_true_iff.mp hd
    exact .append (.take (kind_of_isAt hk) nofun) (yields_name (by simp [kind_rest_take, hn]))
  have hl (d : Cursor) : (takeThen .comma (report .missingInterfaceName)).Yields d 1 :=
    .choose (fun _ hn => absurd hn (by simp)) fun _ => .skip
  exact (Yields.append (.append (yields_name (by simp [hc])) hw) (hl _)).mono fun w hw =>
    Pattern.mem_mul_one.mp hw

theorem yields_implementsClause (hc : c.kind = .kwImplements) :
    implementsClause.Yields c (.node .implementsClause) :=
  .node (.append (.take hc nofun) (.choose yields_interfaces fun _ => .report)) fun _ => rfl

theorem yields_headerRest (c : Cursor) : headerRest.Yields c 1 :=
  .choose (fun _ => .skip) fun _ hn => absurd hn (by simp)

theorem yields_header (hc : c.kind = .ident) : header.Yields c
    (.token .ident * .optional (.node .objectId) * .node .identifierName *
      .optional (.node .extendsClause) * .optional (.node .implementsClause)) := by
  have hh : header.Yields c (.token .ident * .optional (.node .objectId) * .node .identifierName *
      .optional (.node .extendsClause) * .optional (.node .implementsClause) * 1) := by
    refine .append (.append (.append (.append (.append (.take hc nofun) ?_) (yields_nameOr _)) ?_)
      ?_) (yields_headerRest _)
    · exact .optionalIf fun h => .node (.take (kind_of_isAt h) nofun) fun _ => rfl
    · exact .optionalIf fun h => yields_extendsClause (kind_of_isAt h)
    · exact .optionalIf fun h => yields_implementsClause (kind_of_isAt h)
  exact hh.mono fun w hw => Pattern.mem_mul_one.mp hw

theorem yields_object {k : NodeKind} (hc : c.kind = .ident) (hk : k.production = .object)
    (hs : ∀ ks, Symbol.ofNode k ks = .node k) : (object k).Yields c (.node k) := by
  have hm (d : Cursor) : (memberList member).Yields d (.optional .memberList) :=
    yields_takeThen nofun fun _ =>
      .append (.whileAt fun _ _ _ => yields_member _) (yields_require nofun)
  have ho : (header ++ memberList member).Yields c .object := .append (yields_header hc) (hm _)
  exact .node (hk ▸ ho) hs

/-! ## Files -/

theorem yields_directive {k : NodeKind} (hc : c.kind = .ident) (hk : k.production = .directive)
    (hs : ∀ ks, Symbol.ofNode k ks = .node k) : (directive k).Yields c (.node k) :=
  .node (hk ▸ .append (.append (.take hc nofun) (YieldsTokens.clause _)) (yields_require nofun)) hs

theorem mem_objects_of_word {word : Text} {k : NodeKind} (h : NodeKind.ofObjectWord? word = some k) :
    k ∈ NodeKind.objects := by
  have hw : ∀ entry ∈ NodeKind.objectWords, entry.2 ∈ NodeKind.objects := by decide
  unfold NodeKind.ofObjectWord? at h
  obtain ⟨entry, he, rfl⟩ := Option.map_eq_some_iff.mp h
  exact hw entry (List.mem_of_find?_eq_some he)

theorem production_object {k : NodeKind} (h : k ∈ NodeKind.objects) :
    k.production = .object ∧ ∀ ks, Symbol.ofNode k ks = .node k := by
  revert h
  cases k <;> first | exact fun _ => ⟨rfl, fun _ => rfl⟩ | exact fun h => absurd h (by decide)

theorem kind_of_atWord {word : Text} (h : c.atWord word) : c.kind = .ident :=
  kind_of_isAt (Bool.and_eq_true_iff.mp h).1

theorem yields_declaration (c : Cursor) : declaration.Yields c .declaration := by
  refine .look ?_
  split
  · rename_i h
    exact .among (yields_directive (kind_of_atWord h) rfl fun _ => rfl) (by decide)
  · split
    · rename_i h
      exact .among (yields_directive (kind_of_atWord h) rfl fun _ => rfl) (by decide)
    · split
      · rename_i k hk
        split at hk
        · rename_i hi
          have hm := mem_objects_of_word hk
          obtain ⟨hp, hs⟩ := production_object hm
          exact .among (yields_object (kind_of_isAt hi) hp hs)
            (List.mem_cons_of_mem _ (List.mem_cons_of_mem _ hm))
        · cases hk
      · exact fun hn => absurd hn (by simp)

/-- A file that is read without a problem follows the rules. -/
theorem yields_declarations (c : Cursor) : declarations.Yields c Pattern.declaration.star :=
  .whileAt fun d _ _ => yields_declaration d

end AlRefactor.Grammar
