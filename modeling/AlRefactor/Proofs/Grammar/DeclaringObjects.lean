import AlRefactor.Proofs.Grammar.DeclaringMembers

/-!
# Files with one more declaration

An object is read with one more variable, in the first of its sections of variables or in a new one in
front of its first procedure or of its end. A file is read with one more variable in one of its
procedures or objects.
-/

namespace AlRefactor.Grammar

open Production AlRefactor.Tree

variable {c : Cursor} {n : Nat} {d t t' : Tree} {o : Hole}

/-! ## Sections of an object -/

theorem member_eq (c : Cursor) : member.read c =
    (memberForm (memberUpTo c.ahead.length) c.kind (c.peek 1)).read c := rfl

/-- Every member is one tree. -/
theorem made_member (hn : (member.read c).problems = []) : ∃ u, (member.read c).made = [u] := by
  obtain ⟨s, -, hs⟩ := Pattern.mem_oneOf.mp ((yields_member c) hn).2
  obtain ⟨u, hu, -⟩ := List.map_eq_singleton_iff.mp hs
  exact ⟨u, hu⟩

theorem isName_of_start (h : AtMethod c ∨ c.kind = .kwVar) : c.kind.isName = false := by
  rcases h with (h | h | h | h) | h
  case inl.inr.inr.inr =>
    generalize c.kind = k at h ⊢
    cases k <;> first | rfl | cases h
  all_goals
    rw [h]
    rfl

/-- What starts like a procedure or a section of variables is one. -/
theorem kind_of_start {u : Tree} (hn : (member.read c).problems = []) (hm : (member.read c).made = [u])
    (h : AtMethod c ∨ c.kind = .kwVar) : u.kind.isMethod ∨ u.kind = NodeKind.globalVarSection := by
  rw [member_eq] at hn hm
  have hcase := memberCase (memberUpTo c.ahead.length) (memberUpTo c.ahead.length) c
  generalize memberForm (memberUpTo c.ahead.length) c.kind (c.peek 1) = p at hn hm hcase
  cases hcase with
  | globals =>
      rw [made_varSection] at hm
      rw [← (List.cons.inj hm).1]
      exact .inr rfl
  | method =>
      obtain ⟨j, us, hj, hmade⟩ := made_method hn
      rw [← (List.cons.inj (hmade.symm.trans hm)).1]
      rcases List.mem_pair.mp hj with rfl | rfl <;> exact .inl rfl
  | semicolon hk => simp [AtMethod, hk, TokenKind.isAccessModifier] at h
  | property hk => exact absurd (hk.symm.trans (isName_of_start h)) (by decide)
  | part hk =>
      have hn := isName_of_start h
      rw [hk] at hn
      cases hn
  | unreadable => cases hn

/-- A procedure among the members is read as one. -/
theorem method_of_kind {u : Tree} (hn : (member.read c).problems = []) (hm : (member.read c).made = [u])
    (h : u.kind.isMethod) : AtMethod c ∧ member.read c = method.read c := by
  rw [member_eq] at hn hm ⊢
  have hcase := memberCase (memberUpTo c.ahead.length) (memberUpTo c.ahead.length) c
  generalize memberForm (memberUpTo c.ahead.length) c.kind (c.peek 1) = p at hn hm hcase
  cases hcase with
  | globals =>
      rw [made_varSection] at hm
      rw [← (List.cons.inj hm).1] at h
      cases h
  | method hk => exact ⟨hk, rfl⟩
  | semicolon hk =>
      obtain ⟨i, _ | ⟨l, ls⟩⟩ := c
      · cases hk
      · rw [← (List.cons.inj hm).1] at h
        cases h
  | property =>
      rw [property, read_node] at hm
      rw [← (List.cons.inj hm).1] at h
      cases h
  | part =>
      rw [read_sectionOf] at hm
      rw [← (List.cons.inj hm).1] at h
      cases h
  | unreadable => cases hn

/-- The words of a section are one or two lexemes, which tell that it is one. -/
theorem leaves_sectionWords_of (hc : c.kind = .kwVar ∨ c.kind = .kwProtected ∧ c.peek 1 = .kwVar) :
    c.kind = .kwVar ∨ 1 < (leavesOf (sectionWords.read c).made).length := by
  refine hc.imp_right fun ⟨hk, hp⟩ => ?_
  have ho : (takeIf .kwProtected).Opens c :=
    .choose (fun h => .take (ahead_of_isAt h (by decide))) fun h => by simp [Cursor.isAt, hk] at h
  exact two_leaves ho (.take (ahead_ne_nil (by rw [kind_rest_protected hc]; decide)))

theorem memberForm_of_words {inner : Production} {us ls more : List Lexeme} {i : Nat}
    (hc : c.kind = .kwVar ∨ c.kind = .kwProtected ∧ c.peek 1 = .kwVar) (ha : us ++ ls = c.ahead)
    (hu : us ≠ []) (h₂ : c.kind = .kwVar ∨ 1 < us.length) :
    memberForm inner (Cursor.kind ⟨i, us ++ more⟩) (Cursor.peek ⟨i, us ++ more⟩ 1) =
      varSection .globalVarSection := by
  have hk : Cursor.kind ⟨i, us ++ more⟩ = c.kind := peek_of_leaves ha (List.length_pos_iff.mpr hu) i more
  rw [hk]
  rcases hc with hc | ⟨hc, hp⟩
  · rw [hc]
    rfl
  · rcases h₂ with h₂ | h₂
    · rw [h₂] at hc
      cases hc
    · rw [peek_of_leaves ha h₂, hc, hp]
      rfl

/-- A section of variables of an object is read with one more variable. -/
theorem replaces_globals (hd : Declares d) {ws as bs : List Tree} (hw : ∀ w ∈ ws, w.kind.isToken)
    (ha : ∀ a ∈ as ++ bs, a.kind.isToken = false) (hn : (member.read c).problems = [])
    (hm : (member.read c).made = [.node NodeKind.globalVarSection (ws ++ (as ++ bs))]) :
    Replaces MemberEnd member [.node NodeKind.globalVarSection (ws ++ (as ++ bs))]
      [.node NodeKind.globalVarSection (ws ++ (as ++ d :: bs))] (member.read c).rest.ahead := by
  rw [member_eq] at hn hm ⊢
  have hcase := memberCase (memberUpTo c.ahead.length) (memberUpTo c.ahead.length) c
  generalize memberForm (memberUpTo c.ahead.length) c.kind (c.peek 1) = p at hn hm hcase ⊢
  -- Only the branch for sections makes such a node.
  cases hcase with
  | globals hc =>
      have hmade := made_varSection (c := c) .globalVarSection
      rw [hm] at hmade
      injection (List.cons.inj hmade).1 with _ hparts
      obtain ⟨hws, hvs⟩ := parts_section hw ha hn hparts.symm
      have hr := reads_varSection_with hd hc hn hvs
      rw [hws] at hr
      have hwords := leaves_sectionWords hc
      have hahead := read_leaves sectionWords c
      have htwo := leaves_sectionWords_of hc
      rw [hws] at hwords hahead htwo
      have hleaves (us : List Tree) (more : List Lexeme) :
          leavesOf [.node NodeKind.globalVarSection (ws ++ us)] ++ more =
            leavesOf ws ++ (leavesOf us ++ more) := by
        simp [leavesOf, leaves, leavesOf_append]
      refine ⟨.look fun i => Reads.look fun j => Reads.look fun i => ?_, fun ls ms => ?_⟩
      · rw [hleaves]
        show (memberForm _ (Cursor.kind ⟨_, leavesOf ws ++ _⟩) (Cursor.peek ⟨_, leavesOf ws ++ _⟩ 1)).Reads _ _
        rwa [memberForm_of_words hc hahead hwords htwo]
      · rw [hleaves, hleaves]
        obtain ⟨l, us, hl⟩ := List.exists_cons_of_ne_nil hwords
        have hk : l.kind = c.kind := by
          rw [hl] at hahead
          simp [Cursor.kind, Cursor.peek, ← hahead]
        rw [hl]
        refine memberEnd_cons ?_ ?_ ?_ _ _ <;> rw [hk] <;> rcases hc with hc | ⟨hc, -⟩ <;> simp [hc, TokenKind.isName]
  | method =>
      obtain ⟨j, us, hj, hmade⟩ := made_method hn
      injection (List.cons.inj (hmade.symm.trans hm)).1 with hk
      rcases List.mem_pair.mp hj with rfl | rfl <;> cases hk
  | semicolon hk =>
      obtain ⟨i, _ | ⟨l, ls⟩⟩ := c
      · cases hk
      · cases hm
  | property =>
      rw [property, read_node] at hm
      cases hm
  | part =>
      rw [read_sectionOf] at hm
      cases hm
  | unreadable => cases hn

/-! ## A new section -/

theorem reads_member_newSection (hd : Declares d) {rest : List Lexeme}
    (hr : ∀ m, atVariable ⟨m, rest⟩ = false) : member.Reads [newSection .globalVarSection d] rest :=
  .look fun _ => Reads.look fun _ => Reads.look fun _ => reads_newSection hd hr

/-- What stops the search for a place for a new section of an object. -/
abbrev closesGlobals (k : Kind) : Bool := k.isMethod || k == TokenKind.rBrace

/-- Members that are neither procedures nor variables are read again in front of anything. -/
theorem steadyRound_other {u : Tree} (hc : startsMember c = true) (hn : (member.read c).problems = [])
    (hm : (member.read c).made = [u]) (hu : u.kind.isMethod = false ∧ u.kind ≠ NodeKind.globalVarSection) :
    SteadyRound Whatever n startsMember member member c := by
  have ha : c.ahead ≠ [] := fun ha => by simp [startsMember, Cursor.atEnd, ha] at hc
  have hround := InnerMember.round (n := 1) (fun d hd => innerMember_member hd) Nat.one_pos hc hn
  refine ⟨firm_member ha (fun h => ?_) (fun h => ?_), hround.reads, hround.test, fun _ _ => trivial⟩
  · rcases kind_of_start hn hm (.inl h) with h | h
    · rw [hu.1] at h
      cases h
    · exact hu.2 h
  · rcases kind_of_start hn hm (.inr h) with h | h
    · rw [hu.1] at h
      cases h
    · exact hu.2 h

section Members

variable {as zs : List Tree} {e : Cursor} {r : Lexeme} {rest : List Lexeme}

/-- Where a procedure or the end follows, no variable does. -/
theorem not_atVariable_members (hr : r.kind = .rBrace) (he : e.ahead = r :: rest)
    (h : Rounds startsMember member c (zs.map ([·])) e)
    (hz : ∀ z ∈ zs.head?, z.kind.isMethod) (m : Nat) : atVariable ⟨m, c.ahead⟩ = false := by
  cases zs with
  | nil =>
      cases h
      rw [he]
      exact (not_due (by simp [hr, TokenKind.isName]) (by simp [hr]) (by simp [hr]) m rest).2
  | cons z zs =>
      obtain ⟨-, hn, -, hm, -⟩ := of_rounds_cons h
      obtain ⟨hc, hread⟩ := method_of_kind hn hm (hz z rfl)
      rw [← read_leaves member c]
      rw [hread] at hn ⊢
      exact (not_due_method hc hn m _).2

/-- Members with a new section of variables in front of the first procedure or of the end. -/
theorem repeats_newSection (hd : Declares d) (hr : r.kind = .rBrace) (he : e.ahead = r :: rest)
    (h : Rounds startsMember member c ((as ++ zs).map ([·])) e)
    (ha : ∀ u ∈ as, u.kind.isMethod = false ∧ u.kind ≠ NodeKind.globalVarSection)
    (hz : ∀ z ∈ zs.head?, z.kind.isMethod) :
    Repeats startsMember member (as ++ newSection .globalVarSection d :: zs) (r :: rest) := by
  have hstop : startsMember e = false := by simp [startsMember, Cursor.isAt, Cursor.kind, Cursor.peek, he, hr]
  rw [List.map_append] at h
  obtain ⟨c', hbefore, hbehind⟩ := h.split
  have hv := not_atVariable_members hr he hbehind hz
  have hleaves := hbehind.leaves
  rw [flatten_singles] at hleaves
  have hlater : Repeats startsMember member ((zs.map ([·])).flatten ++ []) (r :: rest) :=
    SteadyAt.repeats (R := MemberEnd) (n := (leavesOf zs).length + 1) hbehind
    (fun d hd hp _ => InnerMember.round (fun d hd => innerMember_member hd) (Nat.succ_pos _) hd hp)
    (by rw [flatten_singles]; exact Nat.lt_succ_self _)
    (by rw [he]; exact ⟨Alike.refl _, fun _ _ => rfl, fun _ _ => rfl⟩)
    (.nil fun m => by simp [startsMember, Cursor.isAt, hr])
  rw [flatten_singles, List.append_nil] at hlater
  have hnew : Repeats startsMember member ([newSection .globalVarSection d] ++ zs) (r :: rest) :=
    .cons (fun m => rfl) (reads_member_newSection hd fun m => by
      rw [← he, hleaves]
      exact hv m) (by simp [newSection, leavesOf, leaves]) hlater
  have hall := SteadyAt.repeats (R := Whatever) (n := (leavesOf as).length + 1) hbefore (fun d hd hp hmem => by
    obtain ⟨u, hu, hm⟩ := List.mem_map.mp hmem
    exact steadyRound_other hd hp hm.symm (ha u hu)) (by rw [flatten_singles]; exact Nat.lt_succ_self _)
    trivial hnew
  rwa [flatten_singles] at hall

end Members

theorem split_at {H M hs rs : List Tree} {u : Tree} (h : H ++ M = hs ++ u :: rs) (hu : u ∉ H) :
    ∃ hs', hs = H ++ hs' ∧ M = hs' ++ u :: rs := by
  rcases List.append_eq_append_iff.mp h with ⟨as, rfl, rfl⟩ | ⟨bs, rfl, hb⟩
  · exact ⟨as, rfl, rfl⟩
  · cases bs with
    | nil => exact ⟨[], by simp, hb.symm⟩
    | cons b bs =>
        rw [(List.cons.inj hb).1] at hu
        exact absurd (List.mem_append_right _ List.mem_cons_self) hu

theorem split_last {H hs rs : List Tree} {u r : Tree} (h : H ++ [r] = hs ++ u :: rs) :
    (∃ rs', rs = rs' ++ [r] ∧ H = hs ++ u :: rs') ∨ hs = H ∧ u = r ∧ rs = [] := by
  rcases List.eq_nil_or_concat rs with rfl | ⟨rs', x, rfl⟩
  · obtain ⟨rfl, hr⟩ := List.append_inj' h rfl
    exact .inr ⟨rfl, (List.cons.inj hr).1.symm, rfl⟩
  · rw [List.concat_eq_append, ← List.cons_append, ← List.append_assoc] at h
    obtain ⟨rfl, hr⟩ := List.append_inj' h rfl
    exact .inl ⟨rs', by rw [List.concat_eq_append, ← hr], rfl⟩

section Scope

variable {cs cs' : List Tree} {kind : NodeKind} {stops : Kind → Bool}

/-- What stands in front of all sections and stops stays in front. -/
theorem declared_of_append {H M : List Tree} (h : Declared kind stops d (H ++ M) cs')
    (hH : ∀ u ∈ H, u.kind ≠ kind ∧ stops u.kind = false) :
    ∃ M', cs' = H ++ M' ∧ Declared kind stops d M M' := by
  generalize hc : H ++ M = cs at h
  cases h with
  | extended hh hw ha =>
      obtain ⟨hs', rfl, rfl⟩ := split_at hc fun hu => (hH _ hu).1 rfl
      exact ⟨_, List.append_assoc _ _ _, .extended (fun u hu => hh u (List.mem_append_right _ hu)) hw ha⟩
  | opened hk hh hr =>
      obtain ⟨hs', rfl, rfl⟩ := split_at hc fun hu => by
        rw [(hH _ hu).2] at hr
        cases hr
      exact ⟨_, List.append_assoc _ _ _, .opened
        (fun u hu => hk u (by rw [List.append_assoc]; exact List.mem_append_right _ hu))
        (fun u hu => hh u (List.mem_append_right _ hu)) hr⟩

theorem forall_rounds {test : Cursor → Bool} {p : Production} {tss : List (List Tree)} {e : Cursor}
    {P : List Tree → Prop} (h : Rounds test p c tss e)
    (hp : ∀ d, test d = true → (p.read d).problems = [] → P (p.read d).made) : ∀ ts ∈ tss, P ts := by
  induction h with
  | stop => exact fun _ h => absurd h List.not_mem_nil
  | round ht hn _ _ ih => exact List.forall_mem_cons.mpr ⟨hp _ ht hn, ih⟩

theorem not_rBrace_of_member {u : Tree} (hn : (member.read c).problems = [])
    (hm : (member.read c).made = [u]) : u.kind ≠ TokenKind.rBrace := by
  obtain ⟨s, hs, hu⟩ := Pattern.mem_oneOf.mp ((yields_member c) hn).2
  rw [hm] at hu
  rw [← u.kind_symbol, (List.cons.inj hu).1]
  have hall : ∀ s ∈ Pattern.members, s.kind ≠ TokenKind.rBrace := by decide
  exact hall s hs

/-- The members of an object with one more variable. -/
theorem repeats_declared {ms : List Tree} {e : Cursor} {r : Lexeme} {rest : List Lexeme} (hd : Declares d)
    (hr : r.kind = .rBrace) (he : e.ahead = r :: rest)
    (hrounds : Rounds startsMember member c (ms.map ([·])) e)
    (h : Declared .globalVarSection closesGlobals d (ms ++ [.leaf r]) cs') :
    ∃ ms', cs' = ms' ++ [.leaf r] ∧ Repeats startsMember member ms' (r :: rest) := by
  generalize hc : ms ++ [.leaf r] = cs at h
  -- The closing brace is no member, so what is declared goes in front of it.
  cases h with
  | @extended hs ws as bs rs hh hw ha =>
      rcases split_last hc with ⟨rs', rfl, rfl⟩ | ⟨-, hu, -⟩
      · refine ⟨hs ++ .node NodeKind.globalVarSection (ws ++ (as ++ d :: bs)) :: rs', by simp, ?_⟩
        have hreps : Repeats startsMember member ((Hole.here hs rs').plug
            (.node NodeKind.globalVarSection (ws ++ (as ++ d :: bs)))) e.ahead :=
          repeats_plug (R := MemberEnd) (t := .node NodeKind.globalVarSection (ws ++ (as ++ bs)))
            (fun ls => ⟨Alike.refl _, fun _ _ => rfl, fun _ _ => rfl⟩)
            (fun c d hd => settled_startsMember c d hd.alike) hrounds
            (by simp [startsMember, Cursor.isAt, Cursor.kind, Cursor.peek, he, hr]) (Nat.lt_succ_self _)
            (fun d hd hp => InnerMember.round (fun d hd => innerMember_member hd) (Nat.succ_pos _) hd hp)
            (flatten_singles _) (by
              have hl := reads_leaves hd
              simp only [leaves, leavesOf, leavesOf_append, List.append_nil] at hl ⊢
              simp [hl]) fun e o xs ys ho _ hp hme _ _ => ?_
        · rwa [he] at hreps
        · obtain ⟨u, hu⟩ := made_member hp
          rcases Hole.split_singleton (hme.symm.trans hu) with ⟨rfl, rfl⟩ | ⟨k, o, rfl, -⟩
          · exact replaces_globals hd hw ha hp hu
          · cases ho
      · cases hu
  | @opened hs rs u hk hh hu =>
      have hother : ∀ u ∈ hs, u.kind.isMethod = false ∧ u.kind ≠ NodeKind.globalVarSection := fun u hu =>
        ⟨(Bool.or_eq_false_iff.mp (hh u hu)).1, hk u (List.mem_append_left _ hu)⟩
      have hmember := forall_rounds (P := fun ts => ∀ u ∈ ts, u.kind ≠ TokenKind.rBrace) hrounds
        fun d _ hp => by
          obtain ⟨u, hm⟩ := made_member hp
          rw [hm]
          exact List.forall_mem_singleton.mpr (not_rBrace_of_member hp hm)
      rcases split_last hc with ⟨rs', rfl, rfl⟩ | ⟨rfl, rfl, rfl⟩
      · refine ⟨hs ++ newSection .globalVarSection d :: u :: rs', by simp, ?_⟩
        have hne := hmember [u] (List.mem_map_of_mem (List.mem_append_right _ List.mem_cons_self)) u
          (List.mem_singleton.mpr rfl)
        refine repeats_newSection hd hr he hrounds hother fun z hz => ?_
        rw [← Option.mem_some.mp hz]
        exact (Bool.or_eq_true_iff.mp hu).resolve_right (by simpa using hne)
      · refine ⟨hs ++ newSection .globalVarSection d :: [], by simp, ?_⟩
        exact repeats_newSection hd hr he (by rwa [List.append_nil]) hother fun z hz => by cases hz

/-! ## Objects -/

/-- Nothing that belongs to the members of an object stands in its header. -/
theorem kinds_header (hc : c.kind = .ident) (hn : (header.read c).problems = []) :
    ∀ u ∈ (header.read c).made, (u.kind.isMember || u.kind.isObject || u.kind == NodeKind.compilationUnit) = false ∧
      u.kind ≠ NodeKind.globalVarSection ∧ closesGlobals u.kind = false := by
  intro u hu
  have h := all_of_yields (q := fun k => !(k.isMember || k.isObject || k == NodeKind.compilationUnit) &&
    k != NodeKind.globalVarSection && !closesGlobals k) (yields_header hc) rfl hn u hu
  simp only [Bool.and_eq_true, Bool.not_eq_true'] at h
  exact ⟨h.1.1, by simpa using h.1.2, h.2⟩

theorem read_object (k : NodeKind) (c : Cursor) : (object k).read c =
    ⟨[.node k ((header.read c).made ++ ((memberList member).read (header.read c).rest).made)], true,
      (header.read c).problems ++ ((memberList member).read (header.read c).rest).problems,
      ((memberList member).read (header.read c).rest).rest⟩ := by
  rw [object, read_node, read_append]

theorem replaces_object_parts (k : NodeKind) {us : List Tree} (hc : c.ahead ≠ [])
    (hn : (header.read c).problems = [])
    (h : Replaces (Alike id) (memberList member) ((memberList member).read (header.read c).rest).made us
      ((memberList member).read (header.read c).rest).rest.ahead) :
    Replaces (Alike id) (object k)
      [.node k ((header.read c).made ++ ((memberList member).read (header.read c).rest).made)]
      [.node k ((header.read c).made ++ us)] ((memberList member).read (header.read c).rest).rest.ahead := by
  have hopen : leavesOf (header.read c).made ≠ [] := leaves_ne_nil_of_opens (leads_header hc).opens
  have hbody := read_leaves (memberList member) (header.read c).rest
  have hhead := steady_header hc hn (Nat.lt_succ_self _) (leavesOf us ++
    ((memberList member).read (header.read c).rest).rest.ahead) (by
      rw [← hbody]
      exact h.follow _ _)
  refine ⟨(hhead.append h.reads).node _, fun ls ms => ?_⟩
  simp only [leavesOf, leaves, leavesOf_append, List.append_nil, List.append_assoc]
  exact Alike.append hopen _ _

theorem memberList_of_not (h : c.isAt .lBrace = false) : (memberList member).read c = ⟨[], false, [], c⟩ := by
  rw [show memberList member = choose (·.isAt .lBrace)
    (take ++ (whileAt startsMember member ++ require .rBrace)) skip from rfl, read_choose, h]
  rfl

theorem not_declared_nil : ¬ Declared kind stops d [] cs' := by
  generalize hc : ([] : List Tree) = cs
  intro h
  cases h <;> simp at hc

/-- The members of an object, with their braces, are read with one more variable. -/
theorem replaces_memberList_declared (hd : Declares d) (hn : ((memberList member).read c).problems = [])
    (h : Declared .globalVarSection closesGlobals d ((memberList member).read c).made cs') :
    Replaces (Alike id) (memberList member) ((memberList member).read c).made cs'
      ((memberList member).read c).rest.ahead := by
  cases hl : c.isAt .lBrace with
  | false =>
      rw [memberList_of_not hl] at h
      exact absurd h not_declared_nil
  | true =>
      obtain ⟨l, r, e, hlk, hrk, -, hw, hr, hmade⟩ := read_memberList hl hn
      rw [hmade, ← List.singleton_append] at h
      obtain ⟨us, rfl, hdec⟩ := declared_of_append h fun u hu => by
        rw [List.mem_singleton.mp hu]
        simp [Tree.kind, closesGlobals, hlk, Kind.isMethod, Kind.isNodeOf]
      obtain ⟨tss, hrounds, hflat, hstop⟩ := rounds_of_read (fun d hd ha => by
        simp [startsMember, Cursor.atEnd, ha] at hd) (fun d hd hp => (InnerMember.round (n := 1)
          (fun d hd => innerMember_member hd) Nat.one_pos hd hp).reads) hw
      have hsingle := rounds_singles hrounds fun d _ hp => made_member hp
      rw [← hflat] at hsingle
      rw [hsingle] at hrounds
      obtain ⟨ms, rfl, hreps⟩ := repeats_declared hd hrk hr hrounds hdec
      rw [hmade]
      exact ⟨reads_bracedMembers hlk hrk hreps.reads, fun _ _ => rfl⟩

/-- An object is read with one more variable. -/
theorem replaces_object {k : NodeKind} (hd : Declares d) (hc : c.kind = .ident)
    (hn : ((object k).read c).problems = []) (hm : ((object k).read c).made = [.node k cs])
    (h : Declared .globalVarSection closesGlobals d cs cs') :
    Replaces (Alike id) (object k) [.node k cs] [.node k cs'] ((object k).read c).rest.ahead := by
  have hrest : ((object k).read c).rest = ((memberList member).read (header.read c).rest).rest := by
    rw [read_object]
  rw [hrest]
  rw [read_object] at hn hm
  obtain ⟨hh, hb⟩ := List.append_eq_nil_iff.mp hn
  obtain ⟨-, rfl⟩ := of_singleton hm
  obtain ⟨us, rfl, hdec⟩ := declared_of_append h fun u hu => (kinds_header hc hh u hu).2
  have ha : c.ahead ≠ [] := ahead_ne_nil (by rw [hc]; decide)
  exact replaces_object_parts k ha hh (replaces_memberList_declared hd hb hdec)

/-! ## Files -/

/-- A procedure or an object, and the same with one more variable. -/
inductive Rescoped (d : Tree) : Tree → Tree → Prop
  | method {k cs cs'} : k.isMethod → Declared .varSection (· == NodeKind.block) d cs cs' →
      Rescoped d (.node k cs) (.node k cs')
  | object {k cs cs'} : k.isObject → Declared .globalVarSection closesGlobals d cs cs' →
      Rescoped d (.node k cs) (.node k cs')

/-- A procedure or an object that is read in place of another one wherever that is read. -/
inductive Swaps : Tree → Tree → Prop
  | method {t t' : Tree} : Exchanges t t' → Swaps t t'
  | object {k : NodeKind} {cs cs' : List Tree} : k.isObject → leavesOf cs' ≠ [] →
      (∀ c : Cursor, c.kind = .ident → ((object k).read c).problems = [] →
        ((object k).read c).made = [.node k cs] →
        Replaces (Alike id) (object k) [.node k cs] [.node k cs'] ((object k).read c).rest.ahead) →
      Swaps (.node k cs) (.node k cs')

theorem Swaps.isScope (h : Swaps t t') : t.kind.isMethod ∨ t.kind.isObject := by
  cases h with
  | method h => exact .inl h.isMethod
  | object h => exact .inr h

theorem Swaps.leaves (h : Swaps t t') : t'.leaves ≠ [] := by
  cases h with
  | method h => exact h.leaves
  | object _ h => exact h

theorem Rescoped.swaps (hd : Declares d) (h : Rescoped d t t') : Swaps t t' := by
  cases h with
  | method hk h => exact .method (exchanges_declared hd hk h)
  | @object k cs cs' hk h =>
      cases k with
      | token k => cases hk
      | node k =>
      exact .object hk (leaves_declared (k := k) hd h) fun _ hc hn hm => replaces_object hd hc hn hm h

/-- What the next lexemes ask for in a file. -/
def declarationForm (c : Cursor) : Production :=
  if c.atWord "namespace" then directive .namespaceDeclaration
  else if c.atWord "using" then directive .usingDirective
  else match if c.isAt .ident then NodeKind.ofObjectWord? c.text else none with
    | some kind => object kind
    | none => report .missingObject ++ take

theorem settled_declarationForm : Settled (Alike id) declarationForm := by
  have hw (word : Text) : Settled (Alike id) (·.atWord word) :=
    settled_of fun _ ls => by cases ls <;> rfl
  have ho : Settled (Alike id) fun c => if c.isAt .ident then NodeKind.ofObjectWord? c.text else none :=
    settled_of fun _ ls => by cases ls <;> rfl
  intro c e h
  have h₁ := hw "namespace" c e h
  have h₂ := hw "using" c e h
  have h₃ := ho c e h
  dsimp only at h₁ h₂ h₃
  rw [declarationForm, declarationForm, h₁, h₂, h₃]

/-- A declaration of a file is a directive or an object. -/
inductive DeclarationCase (c : Cursor) : Production → Prop where
  | directive (k : NodeKind) : k ∈ [NodeKind.namespaceDeclaration, .usingDirective] →
      DeclarationCase c (directive k)
  | object (k : NodeKind) : k.isObject → c.kind = .ident → DeclarationCase c (object k)
  | unreadable (p : Production) : DeclarationCase c (report .missingObject ++ p)

theorem declarationCase (c : Cursor) : DeclarationCase c (declarationForm c) := by
  unfold declarationForm
  split
  · exact .directive _ (by decide)
  split
  · exact .directive _ (by decide)
  split
  · rename_i k hk
    split at hk
    · rename_i hi
      exact .object k (List.contains_iff_mem.mpr (mem_objects_of_word hk)) (kind_of_isAt hi)
    · cases hk
  · exact .unreadable _

/-- A scope is not among trees that cannot be one or have one below them. -/
theorem not_swaps_of_plug {k : Kind} {us : List Tree} (h : Swaps t t') (hm : [Tree.node k us] = o.plug t)
    (hr : EverywhereAll Rule [Tree.node k us])
    (hk : (k.isMethod || k.isObject || k == NodeKind.sectionDeclaration || k == NodeKind.compilationUnit) = false) :
    False := by
  simp only [Bool.or_eq_false_iff] at hk
  rcases Hole.split_singleton hm.symm with ⟨-, ht⟩ | ⟨j, o, -, ht⟩
  · subst ht
    rcases h.isScope with h | h
    · exact absurd (hk.1.1.1.symm.trans h) (by decide)
    · exact absurd (hk.1.1.2.symm.trans h) (by decide)
  · injection ht with hj hu
    subst hj hu
    rcases h.isScope with h | h
    · rcases Hole.holder_of_below hr.1 (isMember_of_isMethod h) with h | h | h
      · exact absurd (hk.1.1.2.symm.trans h) (by decide)
      · simp [h] at hk
      · simp [h] at hk
    · have := Hole.not_below_of_object hr.1 h
      simp [this] at hk

/-- A procedure that is exchanged in an object. -/
theorem replaces_object_below {k : NodeKind} (h : Exchanges t t') (hc : c.kind = .ident)
    (hn : ((object k).read c).problems = []) (hr : EverywhereAll Rule ((object k).read c).made)
    (hm : ((object k).read c).made = [.node k (o.plug t)]) :
    Replaces (Alike id) (object k) [.node k (o.plug t)] [.node k (o.plug t')] ((object k).read c).rest.ahead := by
  have hrest : ((object k).read c).rest = ((memberList member).read (header.read c).rest).rest := by
    rw [read_object]
  rw [hrest]
  rw [read_object] at hn hm hr
  obtain ⟨hh, hb⟩ := List.append_eq_nil_iff.mp hn
  obtain ⟨-, hparts⟩ := of_singleton hm
  have ha : c.ahead ≠ [] := ahead_ne_nil (by rw [hc]; decide)
  rcases Hole.split_append hparts.symm with ⟨o, -, ho⟩ | ⟨o, rfl, ho⟩
  · exact absurd ho.symm (not_plug_of_kinds (everywhereAll_append.mp hr.1.2).1 (isMember_of_isMethod h.isMethod)
      fun u hu => (kinds_header hc hh u hu).1)
  · have hrep : Replaces (Alike id) (memberList member) (o.plug t) (o.plug t')
        ((memberList member).read (header.read c).rest).rest.ahead := replaces_memberList
      (n := (leavesOf ((memberList member).read (header.read c).rest).made).length + 1) hb
      (fun d hd => innerMember_member hd) (Nat.lt_succ_self _) ho (Kind.of_isMethod h.isMethod).2 h.leaves
      fun e o hp hme _ _ => replaces_member h hp hme
    have hobject := replaces_object_parts k ha hh (ho ▸ hrep)
    rw [ho] at hobject
    simpa using hobject

/-- A procedure or an object that is exchanged among the declarations of a file. -/
theorem replaces_declaration (h : Swaps t t') (hn : (declaration.read c).problems = [])
    (hm : (declaration.read c).made = o.plug t) :
    Replaces (Alike id) declaration (o.plug t) (o.plug t') (declaration.read c).rest.ahead := by
  have hr := ((yields_declaration c) hn).1
  have hread : declaration.read c = (declarationForm c).read c := rfl
  rw [hread] at hn hm hr ⊢
  suffices hs : Replaces (Alike id) (declarationForm c) (o.plug t) (o.plug t')
      ((declarationForm c).read c).rest.ahead by
    refine ⟨.look fun i => ?_, hs.follow⟩
    have ha := read_leaves (declarationForm c) c
    rw [hm] at ha
    show (declarationForm ⟨i, _⟩).Reads _ _
    rw [← settled_declarationForm c _ (by rw [← ha]; exact hs.follow _ _)]
    exact hs.reads
  have hcase := declarationCase c
  generalize declarationForm c = p at hn hm hr hcase ⊢
  cases hcase with
  | directive k hk =>
      rw [directive, read_node] at hm hr
      refine (not_swaps_of_plug h hm hr ?_).elim
      rcases List.mem_pair.mp hk with rfl | rfl <;> rfl
  | object k hk hc =>
      have hmade : ((object k).read c).made = [.node k ((header.read c).made ++
        ((memberList member).read (header.read c).rest).made)] := by rw [read_object]
      rcases Hole.split_singleton (hm.symm.trans hmade) with ⟨rfl, rfl⟩ | ⟨j, o, rfl, ho⟩
      · cases h with
        | method h => exact absurd ((Kind.of_isMethod h.isMethod).1.symm.trans hk) (by decide)
        | object _ _ h => exact h c hc hn hm
      · injection ho with hj _
        subst hj
        cases h with
        | method h => exact replaces_object_below h hc hn hr hm
        | object hj _ _ =>
            rw [hm] at hr
            injection Hole.not_below_of_object hr.1 hj with hk'
            rw [hk'] at hk
            exact absurd hk (by decide)
  | unreadable p => cases hn

/-- A file that is read without a problem is read the same with another procedure or object in place of
one of its own. -/
theorem reads_declarations {ls : List Lexeme} (h : Swaps t t')
    (hn : (declarations.read ⟨0, ls⟩).problems = []) (hm : (declarations.read ⟨0, ls⟩).made = o.plug t) :
    declarations.Reads (o.plug t') [] := by
  have hend {d : Cursor} (hd : (!d.atEnd) = true) : d.ahead ≠ [] := fun ha => by simp [Cursor.atEnd, ha] at hd
  obtain ⟨tss, hrounds, hflat, hstop⟩ := rounds_of_read (fun d => hend)
    (fun d hd _ => leaves_ne_nil_of_opens (leads_declaration (hend hd)).opens) hn
  have hreps := repeats_plug (R := Alike id) (n := (leavesOf tss.flatten).length + 1) (fun ls => Alike.refl ls)
    (settled_of fun _ ls => by cases ls <;> rfl) hrounds hstop (Nat.lt_succ_self _) (fun e he hp => ?_)
    (hflat.symm.trans hm) h.leaves fun e o _ _ _ _ hp hme _ _ => replaces_declaration h hp hme
  · have he : ((whileAt (fun c => !c.atEnd) declaration).read ⟨0, ls⟩).rest.ahead = [] := by
      simpa [Cursor.atEnd] using hstop
    rw [he] at hreps
    exact hreps.reads
  · have hl := leaves_ne_nil_of_opens (leads_declaration (hend he)).opens
    refine ⟨steady_declaration (hend he), hl, fun m more => ?_, Alike.append hl⟩
    obtain ⟨l, us, hu⟩ := List.exists_cons_of_ne_nil hl
    rw [hu]
    rfl

end Scope

end AlRefactor.Grammar
