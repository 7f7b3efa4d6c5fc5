import AlRefactor.Proofs.Grammar.Declaring
import AlRefactor.Proofs.Syntax.Hole

/-!
# Members with one more declaration

What stands around a procedure that gets one more variable is read as it was: the sections that the
procedure is nested in, and all members beside it.
-/

namespace AlRefactor.Grammar

open Production AlRefactor.Tree

variable {c : Cursor} {n : Nat} {d t t' : Tree} {o : Hole}

/-! ## A place in a repetition -/

theorem of_rounds_cons {test : Cursor → Bool} {p : Production} {ts : List Tree} {tss : List (List Tree)}
    {e : Cursor} (h : Rounds test p c (ts :: tss) e) : test c = true ∧ (p.read c).problems = [] ∧
      leavesOf ts ≠ [] ∧ (p.read c).made = ts ∧ Rounds test p (p.read c).rest tss e := by
  cases h with
  | round ht hn hl hr => exact ⟨ht, hn, hl, rfl, hr⟩

section Repetition

variable {R : Follow} {test : Cursor → Bool} {p p' : Production} {tss : List (List Tree)} {e : Cursor}

/-- Rounds, in one of which a tree is replaced. -/
theorem repeats_plug (hR : ∀ ls, R ls ls) (ht : Settled R test) (h : Rounds test p c tss e)
    (hf : test e = false) (hl : (leavesOf tss.flatten).length < n)
    (hs : ∀ d, test d = true → (p.read d).problems = [] → SteadyRound R n test p p' d)
    (hm : tss.flatten = o.plug t) (ht' : t'.leaves ≠ [])
    (hx : ∀ (d : Cursor) (o' : Hole) (xs ys : List Tree), o = o'.widen xs ys → test d = true →
      (p.read d).problems = [] → (p.read d).made = o'.plug t → d.ahead.length ≤ c.ahead.length →
      (leavesOf (p.read d).made).length < n →
      Replaces R p' (o'.plug t) (o'.plug t') (p.read d).rest.ahead) :
    Repeats test p' (o.plug t') e.ahead := by
  obtain ⟨xss, o, yss, rfl, rfl⟩ := Hole.split_flatten hm.symm
  obtain ⟨d, hb, ha⟩ := h.split
  obtain ⟨hd, hn, -, hmade, hr⟩ := of_rounds_cons ha
  have hlen := hb.leaves
  -- From the last round to the first: each part is read in front of what has been put together so far.
  have hrest : Repeats test p' [] e.ahead := .nil fun m => (ht ⟨m, e.ahead⟩ e (hR _)).trans hf
  rw [List.flatten_append, List.flatten_cons, leavesOf_append, leavesOf_append, List.length_append,
    List.length_append] at hl
  have hafter : Repeats test p' (yss.flatten ++ []) e.ahead :=
    SteadyAt.repeats hr (fun d hd hp _ => hs d hd hp) (by omega) (hR _) hrest
  rw [List.append_nil] at hafter
  have hrep := hx d o _ _ rfl hd hn hmade (by
    rw [← hlen, List.length_append]
    omega) (by rw [hmade]; omega)
  have hafter_leaves : (p.read d).rest.ahead = leavesOf yss.flatten ++ e.ahead := hr.leaves.symm
  have hd_ahead : d.ahead = leavesOf (o.plug t) ++ (p.read d).rest.ahead := by
    rw [← hmade]
    exact (read_leaves p d).symm
  have hplace : Repeats test p' (o.plug t' ++ yss.flatten) e.ahead := by
    refine .cons (fun m => ?_) (hafter_leaves ▸ hrep.reads) (o.leaves_plug_ne_nil ht') hafter
    refine (ht d ⟨m, _⟩ ?_).symm.trans hd
    rw [hd_ahead]
    exact hrep.follow _ _
  have hbefore := SteadyAt.repeats hb (fun d hd hp _ => hs d hd hp) (by omega) (by
    rw [hd_ahead, leavesOf_append, List.append_assoc]
    exact hrep.follow _ _) hplace
  rwa [Hole.plug_widen]

end Repetition

/-! ## Lists of members -/

theorem read_expect {k : TokenKind} {missing : Problem} (hk : k ≠ .eof)
    (hn : ((expect k missing).read c).problems = []) :
    ∃ r : Lexeme, r.kind = k ∧ ((expect k missing).read c).made = [.leaf r] ∧
      c.ahead = r :: ((expect k missing).read c).rest.ahead := by
  rw [expect, read_choose] at hn ⊢
  split at hn
  · rename_i h
    obtain ⟨l, ls, hl, hlk⟩ := exists_ahead h hk
    obtain ⟨m, _⟩ := c
    cases hl
    rw [if_pos h]
    exact ⟨l, hlk, rfl, rfl⟩
  · cases hn

theorem read_require {k : TokenKind} (hk : k ≠ .eof) (hn : ((require k).read c).problems = []) :
    ∃ r : Lexeme, r.kind = k ∧ ((require k).read c).made = [.leaf r] ∧
      c.ahead = r :: ((require k).read c).rest.ahead := read_expect hk hn

section List

variable {inner inner' : Production}

/-- The braces of a list and the members between them. -/
theorem read_memberList (hb : c.isAt .lBrace = true) (hn : ((memberList inner).read c).problems = []) :
    ∃ (l r : Lexeme) (e : Cursor), l.kind = .lBrace ∧ r.kind = .rBrace ∧ c.ahead = l :: e.ahead ∧
      ((whileAt startsMember inner).read e).problems = [] ∧
      ((whileAt startsMember inner).read e).rest.ahead = r :: ((memberList inner).read c).rest.ahead ∧
      ((memberList inner).read c).made =
        .leaf l :: (((whileAt startsMember inner).read e).made ++ [.leaf r]) := by
  have hread : (memberList inner).read c =
      (take ++ (whileAt startsMember inner ++ require .rBrace)).read c := by
    rw [show memberList inner = choose (·.isAt .lBrace)
      (take ++ (whileAt startsMember inner ++ require .rBrace)) skip from rfl, read_choose, if_pos hb]
  rw [hread, read_append, read_append] at hn ⊢
  obtain ⟨l, ls, hl, hlk⟩ := exists_ahead hb (by decide)
  obtain ⟨m, _⟩ := c
  cases hl
  obtain ⟨hw, hr⟩ := List.append_eq_nil_iff.mp (List.append_eq_nil_iff.mp hn).2
  obtain ⟨r, hrk, hrm, hra⟩ := read_require (by decide) hr
  refine ⟨l, r, _, hlk, hrk, rfl, hw, hra, ?_⟩
  rw [hrm]
  rfl

theorem reads_bracedMembers {l r : Lexeme} {us : List Tree} {rest : List Lexeme} (hl : l.kind = .lBrace)
    (hr : r.kind = .rBrace) (h : (whileAt startsMember inner).Reads us (r :: rest)) :
    (memberList inner).Reads (.leaf l :: (us ++ [.leaf r])) rest := by
  obtain ⟨_, r⟩ := r
  cases hr
  exact .choose_true (fun m => by simp [Cursor.isAt, leavesOf, leaves, hl]) (.take_append l h.append_require)

theorem not_plug_leaf {l : Lexeme} (ht : t.kind.isToken = false) : o.plug t ≠ [.leaf l] := by
  intro h
  rcases Hole.split_singleton h with ⟨-, h⟩ | ⟨_, _, -, h⟩
  · rw [← h] at ht
    cases ht
  · cases h

/-- A place in a list of members is in one of them. -/
theorem replaces_memberList (hn : ((memberList inner).read c).problems = [])
    (hi : ∀ d, d.ahead ≠ [] → InnerMember n inner inner' d)
    (hl : (leavesOf ((memberList inner).read c).made).length < n)
    (hm : ((memberList inner).read c).made = o.plug t) (hk : t.kind.isToken = false)
    (ht' : t'.leaves ≠ [])
    (hx : ∀ (d : Cursor) (o : Hole), (inner.read d).problems = [] → (inner.read d).made = o.plug t →
      d.ahead.length < c.ahead.length →
      (leavesOf (inner.read d).made).length < (leavesOf ((memberList inner).read c).made).length →
      Replaces MemberEnd inner' (o.plug t) (o.plug t') (inner.read d).rest.ahead) :
    Replaces (Alike id) (memberList inner') (o.plug t) (o.plug t') ((memberList inner).read c).rest.ahead := by
  cases hb : c.isAt .lBrace with
  | false =>
      rw [show memberList inner = choose (·.isAt .lBrace)
        (take ++ (whileAt startsMember inner ++ require .rBrace)) skip from rfl, read_choose, hb] at hm
      exact absurd hm.symm Hole.split_nil
  | true =>
      obtain ⟨l, r, e, hlk, hrk, hc, hw, hr, hmade⟩ := read_memberList hb hn
      have hplug := hm.symm.trans hmade
      rw [← List.singleton_append] at hplug
      -- The place is neither of the braces, so it is in one of the members between them.
      rcases Hole.split_append hplug with ⟨_, -, h⟩ | ⟨o, rfl, h⟩
      · exact absurd h.symm (not_plug_leaf hk)
      rcases Hole.split_append h.symm with ⟨o, rfl, ho⟩ | ⟨_, -, ho⟩
      swap
      · exact absurd ho.symm (not_plug_leaf hk)
      simp only [Hole.plug_widen, List.nil_append, List.append_nil, List.singleton_append] at hmade ⊢
      have hlen : (leavesOf ((whileAt startsMember inner).read e).made).length + 2 =
          (leavesOf ((memberList inner).read c).made).length := by
        rw [hmade]
        simp [leavesOf, leaves, leavesOf_append]
      have hround := fun d hd hp => InnerMember.round hi (c := d) (by omega) hd hp
      obtain ⟨tss, hrounds, hflat, hstop⟩ := rounds_of_read (fun d hd ha => by
        simp [startsMember, Cursor.atEnd, ha] at hd) (fun d hd hp => (hround d hd hp).reads) hw
      have hreps := repeats_plug (R := MemberEnd) (n := (leavesOf ((memberList inner).read c).made).length)
        (fun ls => ⟨Alike.refl _, fun _ _ => rfl, fun _ _ => rfl⟩)
        (fun c d hd => settled_startsMember c d hd.alike) hrounds hstop (by rw [← hflat]; omega)
        (fun d hd hp => ?_) (hflat.symm.trans ho) ht' fun d o _ _ _ hd hp hmd ha hlt => hx d o hp hmd (by
          rw [hc]
          exact Nat.lt_succ_of_le ha) hlt
      · rw [hr] at hreps
        exact ⟨reads_bracedMembers hlk hrk hreps.reads, fun ls ms => rfl⟩
      · obtain ⟨h₁, h₂, h₃, h₄⟩ := hround d hd hp
        exact ⟨h₁.of_le (by omega), h₂, h₃, h₄⟩

end List

/-! ## Members -/

/-- Trees of other kinds have no members among or below them. -/
theorem not_plug_of_kinds {ts : List Tree} (hr : EverywhereAll Rule ts) (ht : t.kind.isMember)
    (hk : ∀ u ∈ ts, (u.kind.isMember || u.kind.isObject || u.kind == NodeKind.compilationUnit) = false) :
    o.plug t ≠ ts := by
  rintro rfl
  obtain ⟨u, hu, h⟩ := Hole.exists_holder hr ht
  have := hk u hu
  rcases h with h | h | h <;> simp [h] at this

theorem isMember_of_isMethod {k : Kind} (h : k.isMethod) : k.isMember := by
  rw [Kind.isMember, h, Bool.true_or]

/-- The first two of some lexemes are the same if those behind the first ones start alike. -/
theorem two_of_alike {us vs ws rest : List Lexeme} (hu : us ≠ []) (hv : vs ≠ [])
    (h : Alike id vs ws) (hc : us ++ (vs ++ rest) = c.ahead) : ∃ (l m : Lexeme) (xs ys : List Lexeme),
      us ++ vs = l :: m :: xs ∧ us ++ ws = l :: m :: ys ∧ l.kind = c.kind ∧ m.kind = c.peek 1 := by
  obtain ⟨i, _⟩ := c
  cases hc
  match us, vs, ws with
  | [], _, _ => exact absurd rfl hu
  | _, [], _ => exact absurd rfl hv
  | [u], v :: vs, [] => cases h
  | [u], v :: vs, w :: ws =>
      obtain rfl : v = w := Option.some.inj h
      exact ⟨u, v, vs, ws, rfl, rfl, rfl, rfl⟩
  | u :: u' :: us, vs, ws => exact ⟨u, u', us ++ vs, us ++ ws, rfl, rfl, rfl, rfl⟩

section Inner

variable {inner inner' : Production}

theorem read_sectionOf (inner : Production) (c : Cursor) :
    (sectionOf inner).read c =
      ⟨[.node NodeKind.sectionDeclaration (((name ++ sectionArguments).read c).made ++
          ((sectionBody inner).read ((name ++ sectionArguments).read c).rest).made)], true,
        ((name ++ sectionArguments).read c).problems ++
          ((sectionBody inner).read ((name ++ sectionArguments).read c).rest).problems,
        ((sectionBody inner).read ((name ++ sectionArguments).read c).rest).rest⟩ := by
  rw [sectionOf, read_node, read_append]

/-- No member stands in front of the body of a section. -/
theorem kinds_sectionHead : ∀ u ∈ ((name ++ sectionArguments).read c).made,
    (u.kind.isMember || u.kind.isObject || u.kind == NodeKind.compilationUnit) = false := by
  rw [read_append]
  intro u hu
  rcases List.mem_append.mp hu with hu | hu
  · rw [List.mem_singleton.mp hu]
    rfl
  · rw [sectionArguments, read_choose] at hu
    split at hu
    · rw [List.mem_singleton.mp hu]
      rfl
    · cases hu

theorem sectionBody_of_lBrace (inner : Production) (h : c.isAt .lBrace = true) :
    (sectionBody inner).read c = (memberList inner).read c := by
  rw [sectionBody, read_choose, if_pos h]

/-- A place in the body of a section is in one of its members. -/
theorem replaces_sectionBody (hn : ((sectionBody inner).read c).problems = [])
    (hi : ∀ d, d.ahead ≠ [] → InnerMember n inner inner' d)
    (hl : (leavesOf ((sectionBody inner).read c).made).length < n)
    (hm : ((sectionBody inner).read c).made = o.plug t) (hk : t.kind.isToken = false)
    (ht' : t'.leaves ≠ [])
    (hx : ∀ (d : Cursor) (o : Hole), (inner.read d).problems = [] → (inner.read d).made = o.plug t →
      d.ahead.length < c.ahead.length →
      (leavesOf (inner.read d).made).length < (leavesOf ((sectionBody inner).read c).made).length →
      Replaces MemberEnd inner' (o.plug t) (o.plug t') (inner.read d).rest.ahead) :
    Replaces (Alike id) (sectionBody inner') (o.plug t) (o.plug t') ((sectionBody inner).read c).rest.ahead := by
  cases hb : c.isAt .lBrace with
  | false =>
      rw [sectionBody, read_choose, if_neg (by rw [hb]; decide)] at hm hn
      obtain ⟨r, -, hr, -⟩ := read_expect (by decide) hn
      exact absurd (hm.symm.trans hr) (not_plug_leaf hk)
  | true =>
      rw [sectionBody_of_lBrace inner hb] at hn hl hm hx ⊢
      obtain ⟨hr, hf⟩ := replaces_memberList hn hi hl hm hk ht' hx
      refine ⟨.choose_true (fun m => ?_) hr, hf⟩
      have hc := read_leaves (memberList inner) c
      rw [hm] at hc
      rw [← hb]
      exact (settled_isAt .lBrace c ⟨m, _⟩ (by rw [← hc]; exact hf _ _)).symm

/-- A place in a section is in one of its members. -/
theorem reads_sectionOf_plug (hc : c.kind.isName = true) (hn : ((sectionOf inner).read c).problems = [])
    (hr : EverywhereAll Rule ((sectionOf inner).read c).made)
    (hi : ∀ d, d.ahead ≠ [] → InnerMember n inner inner' d)
    (hl : (leavesOf ((sectionOf inner).read c).made).length ≤ n)
    (hm : ((sectionOf inner).read c).made = o.plug t) (hk : t.kind.isMethod)
    (ht' : t'.leaves ≠ [])
    (hx : ∀ (d : Cursor) (o : Hole), (inner.read d).problems = [] → (inner.read d).made = o.plug t →
      d.ahead.length < c.ahead.length →
      (leavesOf (inner.read d).made).length < (leavesOf ((sectionOf inner).read c).made).length →
      Replaces MemberEnd inner' (o.plug t) (o.plug t') (inner.read d).rest.ahead) :
    (sectionOf inner').Reads (o.plug t') ((sectionOf inner).read c).rest.ahead ∧
      ∃ (l m : Lexeme) (us vs : List Lexeme), leavesOf (o.plug t) = l :: m :: us ∧
        leavesOf (o.plug t') = l :: m :: vs ∧ l.kind = c.kind ∧ m.kind = c.peek 1 := by
  have hahead : c.ahead ≠ [] := ahead_of_isName hc
  have hhead : SteadyAt (Alike id) n (name ++ sectionArguments) (name ++ sectionArguments) c :=
    .append (firm_name hahead).steady steady_sectionArguments
  have hopen : leavesOf ((name ++ sectionArguments).read c).made ≠ [] :=
    leaves_ne_nil_of_opens (.append ((Opens.take hahead).node _))
  have hleaves := read_leaves (name ++ sectionArguments) c
  have hlen := congrArg List.length hleaves
  rw [List.length_append] at hlen
  have hpos := List.length_pos_iff.mpr hopen
  rw [read_sectionOf] at hm hn hl hr hx ⊢
  obtain ⟨hn, hb⟩ := List.append_eq_nil_iff.mp hn
  have hbpos := List.length_pos_iff.mpr (reads_sectionBody hb)
  simp only [leavesOf, leaves, List.append_nil, leavesOf_append, List.length_append] at hl hx
  -- The place is not the section itself, and what stands in front of its body has no members.
  rcases Hole.split_singleton hm.symm with ⟨-, ht⟩ | ⟨j, o, rfl, ht⟩
  · rw [← ht] at hk
    cases hk
  injection ht with hj hparts
  subst hj
  rcases Hole.split_append hparts.symm with ⟨o, -, h⟩ | ⟨o, rfl, h⟩
  · exact absurd h.symm (not_plug_of_kinds (everywhereAll_append.mp hr.1.2).1 (isMember_of_isMethod hk)
      kinds_sectionHead)
  obtain ⟨hread, hf⟩ := replaces_sectionBody hb hi (by omega) h (Kind.of_isMethod hk).2 ht'
    fun d o hp hmd ha hlt => hx d o hp hmd (by omega) (by omega)
  have hbody := read_leaves (sectionBody inner) ((name ++ sectionArguments).read c).rest
  have hfirst := hhead hn (by omega) (leavesOf (o.plug t') ++
    ((sectionBody inner).read ((name ++ sectionArguments).read c).rest).rest.ahead) (by
      rw [← hbody, h]
      exact hf _ _)
  rw [h] at hbody
  have hnew := (hfirst.append hread).node NodeKind.sectionDeclaration
  have hplug (u : Tree) : (Hole.under [] NodeKind.sectionDeclaration
      (o.widen ((name ++ sectionArguments).read c).made []) []).plug u =
        [.node NodeKind.sectionDeclaration (((name ++ sectionArguments).read c).made ++ o.plug u)] := by
    simp [Hole.plug]
  rw [hplug, hplug]
  refine ⟨hnew, ?_⟩
  simp only [leavesOf, leaves, List.append_nil, leavesOf_append]
  rw [← hbody] at hleaves
  exact two_of_alike hopen (h ▸ reads_sectionBody hb) (by simpa using hf [] []) hleaves

end Inner

/-- A procedure that starts with an access modifier does not go on with variables. -/
theorem peek_of_method (hc : c.kind.isAccessModifier = true) (hn : (method.read c).problems = []) :
    c.peek 1 ≠ .kwVar := by
  intro hp
  have ha : attributes.read c = ⟨[], false, [], c⟩ :=
    read_whileAt_of_not _ _ (Bool.eq_false_iff.mpr fun hk => by
      simp [kind_of_isAt hk, TokenKind.isAccessModifier] at hc)
  have hm := (of_method hn).2
  rw [ha] at hm
  obtain ⟨m, _ | ⟨l, _ | ⟨l', ls⟩⟩⟩ := c
  · cases hc
  · cases hp
  · have hl' : l'.kind = .kwVar := hp
    have hno : (l' : Lexeme).kind.isAccessModifier = false := by rw [hl']; rfl
    rw [plainMethod, read_append] at hm
    obtain ⟨hw, ht⟩ := List.append_eq_nil_iff.mp hm
    -- Only the first token is a modifier: behind it the keyword of a procedure would have to stand.
    obtain ⟨tss, hr, -, hs⟩ := rounds_of_read (fun d hd => ahead_ne_nil fun hk => by
      simp [hk, TokenKind.isAccessModifier] at hd) (fun d hd _ => leaves_ne_nil_of_opens (.take
        (ahead_ne_nil fun hk => by simp [hk, TokenKind.isAccessModifier] at hd))) hw
    generalize ((whileAt (·.kind.isAccessModifier) take).read ⟨m, l :: l' :: ls⟩).rest = e at hr hs ht
    cases hr with
    | stop => exact absurd (hc.symm.trans hs) (by decide)
    | round _ _ _ hr =>
        cases hr with
        | stop => simp [methodTail, Cursor.atAny, Cursor.kind, Cursor.peek, hl'] at ht
        | round hl _ _ _ => exact absurd (hno.symm.trans hl) (by decide)

theorem memberForm_of_method (inner : Production) (h : AtMethod c)
    (hp : c.kind = .kwProtected → c.peek 1 ≠ .kwVar) : memberForm inner c.kind (c.peek 1) = method := by
  rcases h with h | h | h | h
  · rw [h]; rfl
  · rw [h]; rfl
  · rw [h]; rfl
  · cases hk : c.kind <;> rw [hk] at h <;> try cases h
    · rfl
    · rfl
    · rw [memberForm, if_neg (by simpa using hp hk)]

theorem made_method (hn : (method.read c).problems = []) : ∃ (j : NodeKind) (us : List Tree),
    j ∈ [NodeKind.methodDeclaration, .triggerDeclaration] ∧ (method.read c).made = [.node j us] := by
  obtain ⟨j, hj, hs⟩ := Pattern.mem_nodes.mp ((yields_method c) hn).2
  obtain ⟨u, hmade, hu⟩ := List.map_eq_singleton_iff.mp hs
  have hk := u.kind_symbol
  cases u with
  | leaf l => cases hu
  | node k us =>
      obtain rfl : k = j := by rw [hu] at hk; exact hk.symm
      exact ⟨j, us, hj, hmade⟩

/-- A procedure among trees that cannot have one below them is the only one of them. -/
theorem eq_of_plug {k : Kind} {us : List Tree} (hm : [Tree.node k us] = o.plug t) (hk : t.kind.isMethod)
    (hr : EverywhereAll Rule [Tree.node k us])
    (hn : (k.isObject || k == NodeKind.sectionDeclaration || k == NodeKind.compilationUnit) = false) :
    o = .here [] [] ∧ t = .node k us := by
  rcases Hole.split_singleton hm.symm with ⟨rfl, h⟩ | ⟨j, o, rfl, h⟩
  · exact ⟨rfl, h.symm⟩
  · injection h with hj hu
    subst hj hu
    rcases Hole.holder_of_below hr.1 (isMember_of_isMethod hk) with h | h | h <;> simp [h] at hn

section Step

variable (h : Exchanges t t')

include h

/-- A procedure that is exchanged among members. -/
theorem replaces_memberStep {inner inner' : Production} (hn : ((memberStep inner).read c).problems = [])
    (hr : EverywhereAll Rule ((memberStep inner).read c).made)
    (hi : ∀ d, d.ahead ≠ [] → InnerMember n inner inner' d)
    (hl : (leavesOf ((memberStep inner).read c).made).length ≤ n)
    (hm : ((memberStep inner).read c).made = o.plug t)
    (hx : ∀ (d : Cursor) (o : Hole), (inner.read d).problems = [] →
      (inner.read d).made = o.plug t → d.ahead.length < c.ahead.length →
      (leavesOf (inner.read d).made).length < (leavesOf ((memberStep inner).read c).made).length →
      Replaces MemberEnd inner' (o.plug t) (o.plug t') (inner.read d).rest.ahead) :
    Replaces MemberEnd (memberStep inner') (o.plug t) (o.plug t')
      ((memberStep inner).read c).rest.ahead := by
  have hk := h.isMethod
  have hread : (memberStep inner).read c = (memberForm inner c.kind (c.peek 1)).read c := rfl
  rw [hread] at hn hr hl hm hx ⊢
  rw [memberStep_eq]
  have hcase := memberCase inner inner' c
  generalize memberForm inner c.kind (c.peek 1) = p at hcase hn hr hl hm hx ⊢
  generalize hp' : memberForm inner' c.kind (c.peek 1) = p' at hcase
  cases hcase with
  | globals hc =>
      rw [made_varSection] at hm hr
      rw [(eq_of_plug hm hk hr rfl).2] at hk
      cases hk
  | method hc =>
      obtain ⟨j, us, hj, hmade⟩ := made_method hn
      have hplug := hmade.symm.trans hm
      obtain ⟨rfl, ht⟩ := eq_of_plug hplug hk (hmade ▸ hr) (by
        rcases List.mem_pair.mp hj with rfl | rfl <;> rfl)
      rw [← ht] at hmade
      obtain ⟨hread, hf⟩ := h.replaces hc hn hmade
      show Replaces MemberEnd _ [t] [t'] _
      refine ⟨Reads.look fun i => ?_, hf⟩
      -- The new procedure starts as the old one does, so the same form of a member is chosen for it.
      have hc' : AtMethod ⟨i, leavesOf [t'] ++ (method.read c).rest.ahead⟩ := by
        have ha := read_leaves method c
        rw [hmade] at ha
        have hk := settled_kind c ⟨i, leavesOf [t'] ++ (method.read c).rest.ahead⟩
          (by rw [← ha]; exact (hf _ _).alike)
        rwa [AtMethod, ← hk]
      rwa [memberForm_of_method inner' hc' fun hp => peek_of_method (by rw [hp]; rfl) (hread.outcome i).2]
  | semicolon hc =>
      obtain ⟨i, ls⟩ := c
      cases ls with
      | nil => cases hc
      | cons l ls => exact absurd hm.symm (not_plug_leaf (Kind.of_isMethod hk).2)
  | property hc hp =>
      rw [property, read_node] at hm hr
      rw [(eq_of_plug hm hk hr rfl).2] at hk
      cases hk
  | part hc hp =>
      have hname : c.kind.isName = true := by rw [hc]; rfl
      obtain ⟨hread, l, m, us, vs, hold, hnew, hlk, hmk⟩ :=
        reads_sectionOf_plug hname hn hr hi hl hm hk h.leaves hx
      refine ⟨.look fun i => ?_, fun ls ms => ?_⟩
      · rw [hnew]
        show (memberForm inner' l.kind m.kind).Reads _ _
        rwa [hlk, hmk, hp']
      · rw [hold, hnew]
        exact memberEnd_two (by rw [hlk, hname]) (by rw [hmk]; rcases hp with hp | hp <;> simp [hp]) _ _
  | unreadable p => exact absurd hn (List.cons_ne_nil _ _)

theorem replaces_memberUpTo {m m' : Nat} (ha : c.ahead.length < m)
    (hn : ((memberUpTo m).read c).problems = [])
    (hl : (leavesOf ((memberUpTo m).read c).made).length < m')
    (hm : ((memberUpTo m).read c).made = o.plug t) :
    Replaces MemberEnd (memberUpTo m') (o.plug t) (o.plug t')
      ((memberUpTo m).read c).rest.ahead := by
  induction m generalizing m' c o with
  | zero => exact absurd ha (Nat.not_lt_zero _)
  | succ m ih =>
      obtain ⟨m', rfl⟩ := Nat.exists_eq_add_of_lt (Nat.zero_lt_of_lt hl)
      have hr := (yields_memberUpTo (m + 1) c ha hn).1
      have hlen := congrArg List.length (read_leaves (memberUpTo (m + 1)) c)
      rw [List.length_append] at hlen
      have hs : Replaces MemberEnd (memberStep (memberUpTo m')) _ _ _ := replaces_memberStep
        (n := (leavesOf ((memberUpTo (m + 1)).read c).made).length) h hn hr
        (fun e he => innerMember_memberUpTo (by omega) (by omega) he) (Nat.le_refl _) hm
        fun e o hp hme hae hle => ih (by omega) hp (by
          have : (leavesOf ((memberUpTo m).read e).made).length <
            (leavesOf ((memberUpTo (m + 1)).read c).made).length := hle
          omega) hme
      rw [Nat.zero_add]
      exact ⟨.look fun _ => hs.reads, hs.follow⟩

/-- A member that has the procedure among those below it. -/
theorem replaces_member (hn : (member.read c).problems = [])
    (hm : (member.read c).made = o.plug t) :
    Replaces MemberEnd member (o.plug t) (o.plug t') (member.read c).rest.ahead := by
  have hlen := h.length
  have hto {m' : Nat} (hm' : (leavesOf (o.plug t)).length < m') :=
    replaces_memberUpTo h (Nat.lt_succ_self c.ahead.length) hn (hm ▸ hm') hm
  refine ⟨.look fun i => (hto ?_).reads, (hto (Nat.lt_succ_self _)).follow⟩
  simp only [Hole.leaves_plug, List.length_append]
  omega

end Step

end AlRefactor.Grammar
