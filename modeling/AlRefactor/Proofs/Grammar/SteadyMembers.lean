import AlRefactor.Proofs.Grammar.SteadyDeclarations

/-!
# Members and objects do not hang on what follows

A member is read the same in front of anything that starts with the same lexeme and goes on like a
return value or a variable if what followed did. Two lexemes tell the form of a member, and both are
read with it where both are needed.
-/

namespace AlRefactor.Grammar

open Production AlRefactor.Tree

variable {c : Cursor} {n : Nat}

/-! ## Members -/

/-- A name and what cannot follow one in a declaration of variables. -/
theorem memberEnd_two {l m : Lexeme} (hl : l.kind.isName = true) (hm : m.kind ∉ [.colon, .comma])
    (ls ms : List Lexeme) : MemberEnd (l :: m :: ls) (l :: m :: ms) := by
  have hb : l.kind ≠ .lBracket := fun h => by simp [h, TokenKind.isName] at hl
  have hc : l.kind ≠ .colon := fun h => by simp [h, TokenKind.isName] at hl
  have ha (us : List Lexeme) : afterAttributes 0 (l :: m :: us) = l :: m :: us := by
    simp [afterAttributes]
  have hm : m.kind ≠ .colon ∧ m.kind ≠ .comma := by simpa using hm
  have hr (i : Nat) (us : List Lexeme) : atReturnValue ⟨i, l :: m :: us⟩ = false := by
    simp [atReturnValue, Cursor.isAt, Cursor.kind, Cursor.peek, hc, hm.1]
  have hv (i : Nat) (us : List Lexeme) : atVariable ⟨i, l :: m :: us⟩ = false := by
    simp [atVariable, ha, hm.1, hm.2]
  exact ⟨rfl, fun i j => (hr i ls).trans (hr j ms).symm, fun i j => (hv i ls).trans (hv j ms).symm⟩

theorem firm_property (hc : c.kind.isName = true) (hp : c.peek 1 = .eq) :
    FirmAt n property property c := by
  have hr : (name.read c).rest.ahead ≠ [] := ahead_ne_nil (by rw [kind_rest_name, hp]; decide)
  have hq : SteadyAt (Alike id) n (name ++ take ++ clause) (name ++ take ++ clause) c :=
    .append (.append (firm_name (ahead_of_isName hc)).steady (.take hr))
      (steady_clause.imp fun _ _ => Alike.of_id)
  exact .node _ (hq.required (by decide))

theorem steady_sectionArguments : SteadyAt (Alike id) n sectionArguments sectionArguments c :=
  .choose (settled_isAt _) (fun _ => steady_balanced.node _) fun _ => .skip

/-- Two parts that open read two lexemes. -/
theorem two_leaves {p q : Production} (hp : p.Opens c) (hq : q.Opens (p.read c).rest) :
    1 < (leavesOf ((p ++ q).read c).made).length := by
  have := List.length_pos_iff.mpr (leaves_ne_nil_of_opens hp)
  have := List.length_pos_iff.mpr (leaves_ne_nil_of_opens hq)
  rw [read_append, leavesOf_append, List.length_append]
  omega

/-- Inner members are steady where they read fewer than a number of lexemes, and found again to be
members whatever follows. -/
structure InnerMember (n : Nat) (p p' : Production) (c : Cursor) : Prop where
  steady : SteadyAt MemberEnd n p p' c
  reads : 0 < n → (p.read c).problems = [] → leavesOf (p.read c).made ≠ []
  follow : 0 < n → (p.read c).problems = [] → ∀ ls ms,
    MemberEnd (leavesOf (p.read c).made ++ ls) (leavesOf (p.read c).made ++ ms)

/-- A member starts here. -/
def startsMember (c : Cursor) : Bool := !(c.isAt .rBrace || c.atEnd)

theorem settled_startsMember : Settled (Alike id) startsMember :=
  settled_of fun _ ls => by cases ls <;> rfl

section Member

variable {inner inner' : Production} (h : ∀ d, d.ahead ≠ [] → InnerMember n inner inner' d)
include h

theorem InnerMember.round (hn : 0 < n) (hc : startsMember c = true) (hp : (inner.read c).problems = []) :
    SteadyRound MemberEnd n startsMember inner inner' c := by
  have hi := h c fun ha => by simp [startsMember, Cursor.atEnd, ha] at hc
  refine ⟨hi.steady, hi.reads hn hp, fun m more => ?_, hi.follow hn hp⟩
  rw [← hc]
  refine (settled_startsMember _ _ ?_).symm
  rw [← read_leaves inner c]
  exact Alike.append (hi.reads hn hp) _ _

theorem steady_members : SteadyAt MemberEnd n (whileAt startsMember inner) (whileAt startsMember inner') c :=
  .of_pos fun hn => .whileAt_of (fun c d hd => settled_startsMember c d hd.alike)
    (fun d hd ha => by simp [startsMember, Cursor.atEnd, ha] at hd)
    (fun d hd hp => (InnerMember.round h hn hd hp).reads)
    fun d hd hp => InnerMember.round h hn hd hp

/-- The members of a list and the brace behind them. -/
theorem firm_members : FirmAt n (whileAt startsMember inner ++ require .rBrace)
    (whileAt startsMember inner' ++ require .rBrace) c := by
  refine .append_of (steady_members h) (firm_expect (by decide) _) fun hn rest _ => ?_
  generalize ((whileAt startsMember inner).read c).rest = e at hn ⊢
  obtain ⟨l, ls, hl⟩ := List.exists_cons_of_ne_nil (leaves_require (by decide) hn)
  have hr := read_leaves (require .rBrace) e
  rw [hl] at hr
  have hk : l.kind = .rBrace := by
    rw [require, expect, read_choose] at hn
    split at hn
    · rename_i hk
      simpa [Cursor.isAt, Cursor.kind, Cursor.peek, ← hr] using hk
    · cases hn
  rw [hl, ← hr]
  exact memberEnd_cons (by simp [hk, TokenKind.isName]) (by simp [hk]) (by simp [hk]) _ _

theorem firm_memberList (hc : c.isAt .lBrace = true) :
    FirmAt n (memberList inner) (memberList inner') c := by
  have ho : (memberList inner).Opens c := .choose (fun h => .append (.take (ahead_of_isAt h (by decide))))
    fun h => absurd (hc.symm.trans h) (by decide)
  exact .choose_reading (settled_isAt .lBrace)
    (fun _ => .append_of (S := Whatever) (.take (ahead_of_isAt hc (by decide))) (firm_members h) fun _ _ _ => trivial)
    (fun hf => absurd (hc.symm.trans hf) (by decide)) fun _ => leaves_ne_nil_of_opens ho

omit h in
theorem reads_sectionBody (hn : ((sectionBody inner).read c).problems = []) :
    leavesOf ((sectionBody inner).read c).made ≠ [] := by
  rw [sectionBody, read_choose] at hn ⊢
  split at hn
  · rename_i hc
    rw [if_pos hc]
    exact leaves_ne_nil_of_opens (.choose (fun h => .append (.take (ahead_of_isAt h (by decide))))
      fun h => absurd (hc.symm.trans h) (by decide))
  · rename_i hc
    rw [if_neg hc]
    exact leaves_expect (by decide) hn

theorem firm_sectionBody : FirmAt n (sectionBody inner) (sectionBody inner') c :=
  .choose_reading (settled_isAt .lBrace) (firm_memberList h) (fun _ => firm_expect (by decide) _)
    reads_sectionBody

theorem led_sectionOf (hc : c.ahead ≠ []) : LedAt Whatever n (sectionOf inner) (sectionOf inner') c :=
  .node _ (.append_reading (((LedAt.take hc).node _).append fun _ => steady_sectionArguments)
    (firm_sectionBody h) reads_sectionBody)

omit h in
theorem memberEnd_of_kind {p : Production} (hl : leavesOf (p.read c).made ≠ [])
    (hc : c.kind.isName = false ∧ c.kind ≠ .colon ∧ c.kind ≠ .lBracket) (ls ms : List Lexeme) :
    MemberEnd (leavesOf (p.read c).made ++ ls) (leavesOf (p.read c).made ++ ms) := by
  have hr := read_leaves p c
  obtain ⟨l, us, hu⟩ := List.exists_cons_of_ne_nil hl
  rw [hu] at hr ⊢
  have hk : c.kind = l.kind := by simp [Cursor.kind, Cursor.peek, ← hr]
  rw [hk] at hc
  exact memberEnd_cons hc.1 hc.2.1 hc.2.2 _ _

omit h in
/-- What starts with a name and something that cannot follow one in a declaration of variables. -/
theorem memberEnd_of_two {p : Production} (hc : c.kind.isName = true) (hp : c.peek 1 ∉ [.colon, .comma])
    (hl : 1 < (leavesOf (p.read c).made).length) (ls ms : List Lexeme) :
    MemberEnd (leavesOf (p.read c).made ++ ls) (leavesOf (p.read c).made ++ ms) := by
  have hr := read_leaves p c
  match hu : leavesOf (p.read c).made, hl with
  | l :: m :: us, _ =>
      rw [hu] at hr
      refine memberEnd_two ?_ ?_ _ _
      · simpa [Cursor.kind, Cursor.peek, ← hr] using hc
      · simpa [Cursor.peek, ← hr] using hp

omit h in
theorem two_property (hc : c.kind.isName = true) (hp : c.peek 1 = .eq) :
    1 < (leavesOf (property.read c).made).length := by
  have hr : (name.read c).rest.ahead ≠ [] := ahead_ne_nil (by rw [kind_rest_name, hp]; decide)
  have h₂ : 1 < (leavesOf ((name ++ take).read c).made).length :=
    two_leaves ((Opens.take (ahead_of_isName hc)).node _) (Opens.take hr)
  rw [property, read_node, read_append, read_append, leavesOf, leaves, leavesOf, List.append_nil,
    leavesOf_append, leavesOf_append, List.length_append, List.length_append]
  omega

omit h in
theorem two_sectionOf (hc : c.ahead ≠ []) (hn : ((sectionOf inner).read c).problems = []) :
    1 < (leavesOf ((sectionOf inner).read c).made).length := by
  rw [sectionOf, read_node, read_append, read_append] at hn ⊢
  have hb := List.length_pos_iff.mpr (reads_sectionBody (List.append_eq_nil_iff.mp hn).2)
  have ho := List.length_pos_iff.mpr (leaves_ne_nil_of_opens ((Opens.take hc).node NodeKind.identifierName))
  have ho : 0 < (leavesOf (name.read c).made).length := ho
  dsimp only at hb
  simp only [leavesOf, leaves, List.append_nil, leavesOf_append, List.length_append]
  omega

omit h in
theorem two_protected (hc : c.kind = .kwProtected) (hp : c.peek 1 = .kwVar) (kind : NodeKind) :
    1 < (leavesOf ((varSection kind).read c).made).length := by
  have hr := kind_rest_protected (.inr ⟨hc, hp⟩)
  have ho : (takeIf .kwProtected).Opens c :=
    .choose (fun h => .take (ahead_of_isAt h (by decide))) fun h => by simp [Cursor.isAt, hc] at h
  have h₂ := two_leaves ho (.take (ahead_ne_nil (by rw [hr]; decide)))
  rw [varSection, read_node, read_append, leavesOf, leaves, leavesOf, List.append_nil,
    leavesOf_append, List.length_append]
  omega

omit h in
theorem two_method (hc : c.kind.isAccessModifier = true) (hn : (method.read c).problems = []) :
    1 < (leavesOf (method.read c).made).length := by
  have ha : attributes.read c = ⟨[], false, [], c⟩ :=
    read_whileAt_of_not _ _ (Bool.eq_false_iff.mpr fun hk => by
      simp [kind_of_isAt hk, TokenKind.isAccessModifier] at hc)
  obtain ⟨-, hp⟩ := of_method hn
  rw [leaves_method]
  rw [ha, plainMethod, read_append] at hp ⊢
  have ho : (whileAt (·.kind.isAccessModifier) take).Opens c :=
    .whileAt hc (.take (ahead_ne_nil fun hk => by simp [hk, TokenKind.isAccessModifier] at hc))
  have hm := List.length_pos_iff.mpr (leaves_ne_nil_of_opens ho)
  have ht := List.length_pos_iff.mpr (reads_methodTail (List.append_eq_nil_iff.mp hp).2)
  dsimp only at ht ⊢
  simp only [leavesOf, List.nil_append, leavesOf_append, List.length_append]
  omega

/-- The form of the member that the first two lexemes ask for. -/
def memberForm (inner : Production) (k k₁ : TokenKind) : Production :=
  match k with
  | .kwVar => varSection .globalVarSection
  | .lBracket | .kwProcedure | .kwTrigger | .kwLocal | .kwInternal => method
  | .kwProtected => if k₁ == .kwVar then varSection .globalVarSection else method
  | .semicolon => take
  | k =>
    if k.isName && k₁ == .eq then property
    else if k == .ident && (k₁ == .lParen || k₁ == .lBrace) then sectionOf inner
    else report .missingMember ++ take

omit h in
theorem memberStep_eq (inner : Production) :
    memberStep inner = look fun c => memberForm inner c.kind (c.peek 1) := rfl

/-- The productions that a member is read with over inner ones, in front of the lexemes that ask for
them. -/
inductive MemberCase (inner inner' : Production) (c : Cursor) : Production → Production → Prop where
  | globals : c.kind = .kwVar ∨ c.kind = .kwProtected ∧ c.peek 1 = .kwVar →
      MemberCase inner inner' c (varSection .globalVarSection) (varSection .globalVarSection)
  | method : AtMethod c → MemberCase inner inner' c method method
  | semicolon : c.kind = .semicolon → MemberCase inner inner' c take take
  | property : c.kind.isName = true → c.peek 1 = .eq → MemberCase inner inner' c property property
  | part : c.kind = .ident → c.peek 1 = .lParen ∨ c.peek 1 = .lBrace →
      MemberCase inner inner' c (sectionOf inner) (sectionOf inner')
  | unreadable (p : Production) : MemberCase inner inner' c (report .missingMember ++ p) (report .missingMember ++ p)

omit h in
theorem memberCase (inner inner' : Production) (c : Cursor) :
    MemberCase inner inner' c (memberForm inner c.kind (c.peek 1)) (memberForm inner' c.kind (c.peek 1)) := by
  unfold memberForm
  split
  · rename_i hk
    exact .globals (.inl hk)
  all_goals first | exact .method (by simp_all [AtMethod, TokenKind.isAccessModifier]) | skip
  · rename_i hk
    split
    · rename_i hp
      exact .globals (.inr ⟨hk, by simpa using hp⟩)
    · exact .method (by simp_all [AtMethod, TokenKind.isAccessModifier])
  · rename_i hk
    exact .semicolon hk
  · split
    · rename_i hp
      simp only [Bool.and_eq_true, beq_iff_eq] at hp
      exact .property hp.1 hp.2
    · split
      · rename_i hp
        simp only [Bool.and_eq_true, Bool.or_eq_true, beq_iff_eq] at hp
        exact .part hp.1 hp.2
      · exact .unreadable _

omit h in
/-- The second lexeme is read with the member where it decides on its form. -/
theorem memberForm_seen (hn : ((memberForm inner c.kind (c.peek 1)).read c).problems = []) :
    1 < (leavesOf ((memberForm inner c.kind (c.peek 1)).read c).made).length ∨
      ∀ k₁, memberForm inner' c.kind k₁ = memberForm inner' c.kind (c.peek 1) := by
  have hm := memberCase inner inner c
  generalize memberForm inner c.kind (c.peek 1) = p at hn hm ⊢
  cases hm with
  | globals hk =>
      rcases hk with hk | ⟨hk, hp⟩
      · exact .inr fun _ => by rw [hk]; rfl
      · exact .inl (two_protected hk hp _)
  | method hk =>
      rcases hk with hk | hk | hk | hk
      · exact .inr fun _ => by rw [hk]; rfl
      · exact .inr fun _ => by rw [hk]; rfl
      · exact .inr fun _ => by rw [hk]; rfl
      · exact .inl (two_method hk hn)
  | semicolon hk => exact .inr fun _ => by rw [hk]; rfl
  | property hk hp => exact .inl (two_property hk hp)
  | part hk hp => exact .inl (two_sectionOf (ahead_ne_nil (by rw [hk]; decide)) hn)
  | unreadable p => exact absurd hn (List.cons_ne_nil _ _)

theorem innerMember_memberForm (hc : c.ahead ≠ []) :
    InnerMember (n + 1) (memberForm inner c.kind (c.peek 1)) (memberForm inner' c.kind (c.peek 1)) c := by
  have hm := memberCase inner inner' c
  generalize memberForm inner c.kind (c.peek 1) = p at hm ⊢
  generalize memberForm inner' c.kind (c.peek 1) = p' at hm ⊢
  cases hm with
  | globals hk =>
      have hr := leaves_ne_nil_of_opens (leads_varSection .globalVarSection hk).opens
      exact ⟨(steady_varSection _ hk).imp fun _ _ h => ⟨h.alike, h.declares⟩, fun _ _ => hr,
        fun _ _ => memberEnd_of_kind hr (by rcases hk with hk | ⟨hk, -⟩ <;> simp [hk, TokenKind.isName])⟩
  | method hk =>
      exact ⟨steady_method, fun _ _ => leaves_ne_nil_of_opens (leads_method hk).opens,
        fun _ => memberEnd_method hk⟩
  | semicolon hk =>
      have hr := leaves_ne_nil_of_opens (.take hc)
      exact ⟨.take hc, fun _ _ => hr,
        fun _ _ => memberEnd_of_kind hr (by simp [hk, TokenKind.isName])⟩
  | property hk hp =>
      have h₂ := two_property hk hp
      exact ⟨(firm_property hk hp).steady, fun _ _ => List.ne_nil_of_length_pos (by omega),
        fun _ _ => memberEnd_of_two hk (by simp [hp]) h₂⟩
  | part hk hp =>
      have hi : c.kind.isName = true := by simp [hk, TokenKind.isName]
      have h₂ : ((sectionOf inner).read c).problems = [] → 1 < (leavesOf ((sectionOf inner).read c).made).length :=
        two_sectionOf (ahead_of_isName hi)
      exact ⟨FirmAt.steady (led_sectionOf h hc).steady,
        fun _ hn => List.ne_nil_of_length_pos (Nat.zero_lt_of_lt (h₂ hn)),
        fun _ hn => memberEnd_of_two hi (by rcases hp with hp | hp <;> simp [hp]) (h₂ hn)⟩
  | unreadable p =>
      exact ⟨.report_append _, fun _ hn => absurd hn (List.cons_ne_nil _ _),
        fun _ hn => absurd hn (List.cons_ne_nil _ _)⟩

omit h in
/-- A member is asked for again by its own lexemes. -/
theorem memberForm_again (hr : leavesOf ((memberForm inner c.kind (c.peek 1)).read c).made ≠ [])
    (hn : ((memberForm inner c.kind (c.peek 1)).read c).problems = []) (m : Nat) (rest : List Lexeme) :
    memberForm inner'
        (Cursor.kind ⟨m, leavesOf ((memberForm inner c.kind (c.peek 1)).read c).made ++ rest⟩)
        (Cursor.peek ⟨m, leavesOf ((memberForm inner c.kind (c.peek 1)).read c).made ++ rest⟩ 1) =
      memberForm inner' c.kind (c.peek 1) := by
  have ha := read_leaves (memberForm inner c.kind (c.peek 1)) c
  have hk : Cursor.kind ⟨m, leavesOf ((memberForm inner c.kind (c.peek 1)).read c).made ++ rest⟩ = c.kind :=
    peek_of_leaves ha (List.length_pos_iff.mpr hr) m rest
  rw [hk]
  have hseen : _ ∨ ∀ k₁, memberForm inner' c.kind k₁ = memberForm inner' c.kind (c.peek 1) := memberForm_seen hn
  rcases hseen with h₂ | hs
  · rw [peek_of_leaves ha h₂]
  · exact hs _

theorem innerMember_memberStep (hc : c.ahead ≠ []) :
    InnerMember (n + 1) (memberStep inner) (memberStep inner') c := by
  have hf := innerMember_memberForm h hc
  rw [memberStep_eq, memberStep_eq]
  refine ⟨.look_of (fun hn m rest => ?_) hf.steady, hf.reads, hf.follow⟩
  exact memberForm_again (hf.reads (Nat.succ_pos n) hn) hn m rest

/-- Members other than procedures and variables are read the same whatever follows. -/
theorem firm_memberStep (hc : c.ahead ≠ []) (hm : ¬ AtMethod c) (hv : c.kind ≠ .kwVar) :
    FirmAt (n + 1) (memberStep inner) (memberStep inner') c := by
  have hr := (innerMember_memberForm h hc).reads (Nat.succ_pos n)
  have hcase := memberCase inner inner' c
  rw [memberStep_eq, memberStep_eq]
  refine .look_of (fun hn m rest => memberForm_again (hr hn) hn m rest) ?_
  generalize memberForm inner c.kind (c.peek 1) = p at hcase ⊢
  generalize memberForm inner' c.kind (c.peek 1) = p' at hcase ⊢
  cases hcase with
  | globals hk =>
      rcases hk with hk | ⟨hk, -⟩
      · exact absurd hk hv
      · exact absurd (.inr (.inr (.inr (by rw [hk]; rfl)))) hm
  | method hk => exact absurd hk hm
  | semicolon => exact .take hc
  | property hk hp => exact firm_property hk hp
  | part => exact (led_sectionOf h hc).steady
  | unreadable => exact .report_append _

end Member

theorem innerMember_memberUpTo {m m' : Nat} (hm : n ≤ m) (hm' : n ≤ m') (hc : c.ahead ≠ []) :
    InnerMember n (memberUpTo m) (memberUpTo m') c := by
  induction n generalizing m m' c with
  | zero =>
      exact ⟨fun _ hl => absurd hl (Nat.not_lt_zero _), fun hn => absurd hn (Nat.lt_irrefl 0),
        fun hn => absurd hn (Nat.lt_irrefl 0)⟩
  | succ n ih =>
      obtain ⟨m, rfl⟩ := Nat.exists_eq_add_of_le' hm
      obtain ⟨m', rfl⟩ := Nat.exists_eq_add_of_le' hm'
      have hs := innerMember_memberStep (fun d hd => ih (Nat.le_add_left n m) (Nat.le_add_left n m') hd) hc
      exact ⟨.look_of (fun _ _ _ => rfl) hs.steady, hs.reads, hs.follow⟩

theorem innerMember_member (hc : c.ahead ≠ []) : InnerMember n member member c := by
  have h₁ := innerMember_memberUpTo (Nat.succ_pos c.ahead.length) (Nat.le_refl 1) hc
  exact ⟨.look_length fun _ _ _ hm hm' => (innerMember_memberUpTo hm hm' hc).steady,
    fun _ => h₁.reads Nat.one_pos, fun _ => h₁.follow Nat.one_pos⟩

theorem firm_memberUpTo {m m' : Nat} (hm : n ≤ m) (hm' : n ≤ m') (hc : c.ahead ≠ []) (hs : ¬ AtMethod c)
    (hv : c.kind ≠ .kwVar) : FirmAt n (memberUpTo m) (memberUpTo m') c := by
  cases n with
  | zero => exact fun _ hl => absurd hl (Nat.not_lt_zero _)
  | succ n =>
      obtain ⟨m, rfl⟩ := Nat.exists_eq_add_of_le' hm
      obtain ⟨m', rfl⟩ := Nat.exists_eq_add_of_le' hm'
      exact .look_of (fun _ _ _ => rfl) (firm_memberStep
        (fun d hd => innerMember_memberUpTo (Nat.le_add_left n m) (Nat.le_add_left n m') hd) hc hs hv)

theorem firm_member (hc : c.ahead ≠ []) (hs : ¬ AtMethod c) (hv : c.kind ≠ .kwVar) :
    FirmAt n member member c :=
  .look_length fun _ _ _ hm hm' => firm_memberUpTo hm hm' hc hs hv

/-! ## Objects -/

theorem steady_extendsClause (hc : c.ahead ≠ []) :
    SteadyAt (Alike id) n extendsClause extendsClause c :=
  .node _ (.append (.take hc) (firm_nameOr _).steady)

theorem steady_interfaces (hc : c.ahead ≠ []) : SteadyAt (Alike id) n interfaces interfaces c :=
  steady_list (s := TokenKind.isName) (by decide) (firm_name hc).steady
    (fun _ hd => (LedAt.take (ahead_of_isName hd)).node _) fun _ => .report _

theorem steady_implementsClause (hc : c.ahead ≠ []) :
    SteadyAt (Alike id) n implementsClause implementsClause c :=
  .node _ (.append (.take hc) (.choose settled_isName
    (fun h => steady_interfaces (ahead_of_isName h)) fun _ => .report _))

theorem steady_headerRest : SteadyAt (Alike id) n headerRest headerRest c :=
  .choose (settled_of fun _ ls => by cases ls <;> rfl) (fun _ => .skip) fun _ => .report_append _

theorem steady_header (hc : c.ahead ≠ []) : SteadyAt (Alike id) n header header c := by
  refine .append (.append (.append (.append (.append (.take hc) ?_) (firm_nameOr _).steady) ?_) ?_)
    steady_headerRest
  · exact .choose (settled_isAt _) (fun h => .node _ (.take (ahead_of_isAt h (by decide)))) fun _ => .skip
  · exact .choose (settled_isAt _) (fun h => steady_extendsClause (ahead_of_isAt h (by decide)))
      fun _ => .skip
  · exact .choose (settled_isAt _) (fun h => steady_implementsClause (ahead_of_isAt h (by decide)))
      fun _ => .skip

theorem firm_directive (k : NodeKind) (hc : c.ahead ≠ []) : FirmAt n (directive k) (directive k) c := by
  have hp : SteadyAt (Alike id) n (take ++ clause) (take ++ clause) c :=
    .append (.take hc) (steady_clause.imp fun _ _ => Alike.of_id)
  exact .node _ (hp.required (by decide))

/-- An object without braces ends where the file ends. -/
theorem steady_object (k : NodeKind) (hc : c.ahead ≠ []) : SteadyAt (Alike id) n (object k) (object k) c :=
  .node _ (.append (steady_header hc) (.choose (settled_isAt _)
    (fun h => .append (.take (ahead_of_isAt h (by decide)))
      (firm_members fun _ => innerMember_member).steady) fun _ => .skip))

/-! ## Files -/

theorem steady_declaration (hc : c.ahead ≠ []) :
    SteadyAt (Alike id) n declaration declaration c := by
  have hw (word : Text) : Settled (Alike id) (·.atWord word) :=
    settled_of fun _ ls => by cases ls <;> rfl
  have ho : Settled (Alike id) fun c => if c.isAt .ident then NodeKind.ofObjectWord? c.text else none :=
    settled_of fun _ ls => by cases ls <;> rfl
  refine .look fun d hd => ?_
  have h₁ := hw "namespace" c d hd
  have h₂ := hw "using" c d hd
  have h₃ := ho c d hd
  dsimp only at h₁ h₂ h₃
  rw [← h₁, ← h₂, ← h₃]
  split
  · exact (firm_directive _ hc).steady
  split
  · exact (firm_directive _ hc).steady
  split
  · exact steady_object _ hc
  · exact .report_append _

end AlRefactor.Grammar
