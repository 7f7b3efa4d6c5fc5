import AlRefactor.Proofs.Grammar.Nodes

/-!
# Runs without a bound

How productions run when nothing bounds the rounds of their repetitions: a lexeme is taken only where
there is one, every round reads a lexeme at least, and a repetition goes on until its test fails. A
production that runs so at a cursor comes to what it reads there.
-/

namespace AlRefactor

namespace Tree

/-- Only a type can be empty. Below every other node something that has a lexeme comes first. -/
def Headed (k : Kind) : List Tree → Prop
  | [] => k = NodeKind.typeReference
  | t :: _ => t.leaves ≠ []

theorem leaves_node {t : Tree} (k : Kind) (us : List Tree) (h : t.leaves ≠ []) :
    (Tree.node k (t :: us)).leaves ≠ [] := by
  rw [leaves, leavesOf]
  exact fun hn => h (List.append_eq_nil_iff.mp hn).1

end Tree

namespace Production

open AlRefactor.Tree

mutual
/-- What a production comes to at a cursor, with as many rounds as its tests ask for. -/
inductive Runs : Production → Cursor → Outcome (List Tree) → Prop where
  | skip {c} : Runs skip c ⟨[], false, [], c⟩
  | take {n l ls} : Runs take ⟨n, l :: ls⟩ ⟨[.leaf l], false, [], ⟨n + 1, ls⟩⟩
  | report {problem c} : Runs (report problem) c ⟨[], false, [(problem, c.read)], c⟩
  | andThen {p q c a b} : Runs p c a → Runs q a.rest b →
      Runs (andThen p q) c ⟨a.made ++ b.made, false, a.problems ++ b.problems, b.rest⟩
  | look {next c a} : Runs (next c) c a → Runs (look next) c a
  | stop {test p c} : test c = false → Runs (whileAt test p) c ⟨[], false, [], c⟩
  | round {test p c a b} : test c = true → Runs p c a →
      a.rest.ahead.length < c.ahead.length → Runs (whileAt test p) a.rest b →
      Runs (whileAt test p) c ⟨a.made ++ b.made, false, a.problems ++ b.problems, b.rest⟩
  | mark {p kind q c a b} : Runs p c a → Runs q a.rest b →
      Runs (mark p kind q) c
        ⟨[.node (kind a.rest) (a.made ++ b.made)], true, a.problems ++ b.problems, b.rest⟩
  | alone {p kind q c a} : Runs p c a → a.single = false → Runs (grow p kind q) c a
  | grow {p kind q c a b} : Runs p c a → a.single = true → Grown kind q a b →
      Runs (grow p kind q) c b

/-- What a node becomes when other nodes are opened around it, as long as what lies ahead asks for
one. -/
inductive Grown : (Cursor → Option NodeKind) → Production → Outcome (List Tree) →
    Outcome (List Tree) → Prop where
  | stop {kind q a} : kind a.rest = none → Grown kind q a a
  | around {kind q a b r} {k : NodeKind} : kind a.rest = some k → Runs q a.rest b →
      b.rest.ahead.length < a.rest.ahead.length →
      Grown kind q ⟨[.node k (a.made ++ b.made)], true, a.problems ++ b.problems, b.rest⟩ r →
      Grown kind q a r
end

mutual
/-- Every lexeme is counted when it is read. -/
theorem Runs.count {p c a} (h : Runs p c a) :
    a.rest.read + a.rest.ahead.length = c.read + c.ahead.length := by
  match h with
  | .skip | .report | .stop _ => rfl
  | .take => simp only [List.length_cons]; omega
  | .andThen h h' | .round _ h _ h' | .mark h h' => exact h'.count.trans h.count
  | .look h | .alone h _ => exact h.count
  | .grow h _ hg => exact hg.count.trans h.count

theorem Grown.count {kind q a b} (h : Grown kind q a b) :
    b.rest.read + b.rest.ahead.length = a.rest.read + a.rest.ahead.length := by
  match h with
  | .stop _ => rfl
  | .around _ h _ hg => exact hg.count.trans h.count
end

/-! ## What starts with a lexeme -/

/-- What a production makes starts with something that has a lexeme. -/
def Opens (p : Production) (c : Cursor) : Prop :=
  ∃ t us, (p.read c).made = t :: us ∧ t.leaves ≠ []

/-- A production opens or makes nothing. -/
def MayOpen (p : Production) (c : Cursor) : Prop := (p.read c).made = [] ∨ p.Opens c

variable {p q : Production} {c : Cursor}

theorem Opens.lt (h : p.Opens c) : (p.read c).rest.ahead.length < c.ahead.length := by
  obtain ⟨t, us, hm, ht⟩ := h
  have hl := congrArg List.length (p.read_leaves c)
  have := List.length_pos_iff.mpr ht
  rw [hm, leavesOf, List.length_append, List.length_append] at hl
  omega

theorem ahead_rest_of_made_nil (h : (p.read c).made = []) : (p.read c).rest.ahead = c.ahead := by
  have hl := p.read_leaves c
  rwa [h] at hl

/-- Only the count of lexemes could change where nothing is made, and no test asks for it. -/
theorem rest_eq_of_made_nil (h : (p.read c).made = []) : ∃ n, (p.read c).rest = ⟨n, c.ahead⟩ :=
  ⟨(p.read c).rest.read, congrArg (Cursor.mk _) (ahead_rest_of_made_nil h)⟩

namespace Opens

theorem headed (h : p.Opens c) (k : Kind) : Headed k (p.read c).made := by
  obtain ⟨t, us, hm, ht⟩ := h
  rwa [hm]

theorem take (h : c.ahead ≠ []) : take.Opens c := by
  obtain ⟨n, ls⟩ := c
  cases ls with
  | nil => exact absurd rfl h
  | cons l ls => exact ⟨.leaf l, [], rfl, nofun⟩

theorem append (h : p.Opens c) : (p ++ q).Opens c := by
  obtain ⟨t, us, hm, ht⟩ := h
  exact ⟨t, us ++ _, by rw [read_append, hm]; rfl, ht⟩

theorem look {next : Cursor → Production} (h : (next c).Opens c) : (look next).Opens c := h

theorem choose {test : Cursor → Bool} (hp : test c = true → p.Opens c)
    (hq : test c = false → q.Opens c) : (choose test p q).Opens c := by
  rw [Opens, read_choose]
  split
  · rename_i ht; exact hp ht
  · rename_i ht; exact hq (by simpa using ht)

theorem mark {kind : Cursor → Kind} (h : (p ++ q).Opens c) : (mark p kind q).Opens c := by
  obtain ⟨t, us, hm, ht⟩ := h
  have hm : (p.read c).made ++ (q.read (p.read c).rest).made = t :: us := hm
  exact ⟨_, [], by rw [read_mark, hm], leaves_node _ us ht⟩

theorem node (h : p.Opens c) (k : Kind) : (node k p).Opens c := mark h.append

theorem whileAt {test : Cursor → Bool} (ht : test c = true) (h : p.Opens c) :
    (whileAt test p).Opens c := by
  obtain ⟨n, hn⟩ := Nat.exists_eq_succ_of_ne_zero (Nat.ne_of_gt (Nat.zero_lt_of_lt h.lt))
  obtain ⟨t, us, hm, hl⟩ := h
  rw [Opens, read_whileAt, hn]
  simp only [Assembly.rounds]
  rw [if_pos ht]
  exact ⟨t, us ++ _, congrArg (· ++ _) hm, hl⟩

theorem grow {kind : Cursor → Option NodeKind} (h : p.Opens c) : (grow p kind q).Opens c := by
  rw [Opens, read_grow]
  split
  · generalize (p.read c).rest.ahead.length = n
    unfold Opens at h
    generalize p.read c = a at h
    induction n generalizing a with
    | zero => exact h
    | succ n ih =>
        rw [Assembly.grown]
        split
        · exact h
        · obtain ⟨t, us, hm, ht⟩ := h
          exact ih _ ⟨_, [], by rw [hm]; rfl, leaves_node _ _ ht⟩
  · exact h

end Opens

namespace MayOpen

/-- A single node is never nothing. -/
theorem single (h : p.MayOpen c) (hs : (p.read c).single = true) : p.Opens c := by
  rcases h with hn | h
  · obtain ⟨_, _, _, _, hm, _⟩ := (p.agrees c).chain hs
    rw [hn] at hm
    cases hm
  · exact h

theorem opens_append (h : p.MayOpen c)
    (hq : (p.read c).made = [] → q.Opens (p.read c).rest) : (p ++ q).Opens c := by
  rcases h with hn | h
  · obtain ⟨t, us, hm, ht⟩ := hq hn
    exact ⟨t, us, by rw [read_append, hn, hm, List.nil_append], ht⟩
  · exact h.append

theorem append (h : p.MayOpen c) (hq : q.MayOpen (p.read c).rest) : (p ++ q).MayOpen c := by
  rcases h with hn | h
  · rcases hq with hn' | hq
    · exact .inl (by rw [read_append, hn, hn', List.nil_append])
    · exact .inr (opens_append (.inl hn) fun _ => hq)
  · exact .inr h.append

theorem choose {test : Cursor → Bool} (hp : test c = true → p.MayOpen c)
    (hq : test c = false → q.MayOpen c) : (choose test p q).MayOpen c := by
  rw [MayOpen, Opens, read_choose]
  split
  · rename_i ht; exact hp ht
  · rename_i ht; exact hq (by simpa using ht)

theorem whileAt {test : Cursor → Bool} (h : test c = true → p.Opens c) :
    (whileAt test p).MayOpen c := by
  cases ht : test c with
  | false => exact .inl (by rw [read_whileAt_of_not p c ht])
  | true => exact .inr (.whileAt ht (h ht))

theorem grow {kind : Cursor → Option NodeKind} (h : p.MayOpen c) :
    (grow p kind q).MayOpen c := by
  cases hs : (p.read c).single with
  | false =>
      have hg : (Production.grow p kind q).read c = p.read c := by simp [read_grow, hs]
      rw [MayOpen, Opens, hg]
      exact h
  | true => exact .inr (h.single hs).grow

end MayOpen

/-! ## Productions that halt -/

/-- A production runs to its end, to what it reads, and makes no empty node but types. -/
structure Halts (p : Production) (c : Cursor) : Prop where
  runs : Runs p c (p.read c)
  headed : EverywhereAll Headed (p.read c).made

/-- A production runs to its end and starts with something that has a lexeme. -/
structure Leads (p : Production) (c : Cursor) : Prop where
  halts : p.Halts c
  opens : p.Opens c

/-- A production runs to its end and, unless it makes nothing, starts with something that has a
lexeme. -/
structure MayLead (p : Production) (c : Cursor) : Prop where
  halts : p.Halts c
  mayOpen : p.MayOpen c

/-- A production halts wherever there are less than a number of lexemes ahead. -/
def HaltsBelow (p : Production) (n : Nat) : Prop := ∀ c : Cursor, c.ahead.length < n → p.Halts c

/-- A production halts and reads something wherever there is a lexeme, but less than a number of
them. -/
def LeadsBelow (p : Production) (n : Nat) : Prop :=
  ∀ c : Cursor, c.ahead ≠ [] → c.ahead.length < n → p.Leads c

theorem HaltsBelow.le {m n : Nat} (h : p.HaltsBelow n) (hm : m ≤ n) : p.HaltsBelow m :=
  fun c hc => h c (Nat.lt_of_lt_of_le hc hm)

theorem LeadsBelow.le {m n : Nat} (h : p.LeadsBelow n) (hm : m ≤ n) : p.LeadsBelow m :=
  fun c ha hc => h c ha (Nat.lt_of_lt_of_le hc hm)

namespace Halts

theorem skip : skip.Halts c := ⟨.skip, trivial⟩

theorem report {problem : Problem} : (report problem).Halts c := ⟨.report, trivial⟩

theorem take (h : c.ahead ≠ []) : take.Halts c := by
  obtain ⟨n, ls⟩ := c
  cases ls with
  | nil => exact absurd rfl h
  | cons l ls => exact ⟨.take, trivial, trivial⟩

theorem append (hp : p.Halts c) (hq : q.Halts (p.read c).rest) : (p ++ q).Halts c :=
  ⟨.andThen hp.runs hq.runs, everywhereAll_append.mpr ⟨hp.headed, hq.headed⟩⟩

theorem look {next : Cursor → Production} (h : (next c).Halts c) : (look next).Halts c :=
  ⟨.look h.runs, h.headed⟩

theorem choose {test : Cursor → Bool} (hp : test c = true → p.Halts c)
    (hq : test c = false → q.Halts c) : (choose test p q).Halts c := by
  have h : (if test c then p else q).Halts c := by
    split
    · rename_i ht; exact hp ht
    · rename_i ht; exact hq (by simpa using ht)
  exact look h

/-- Nothing is left to be read when the rounds run out, so the test fails there too. -/
theorem rounds {test : Cursor → Bool} {n : Nat} (hn : c.ahead.length ≤ n)
    (h : ∀ d, d.ahead.length ≤ c.ahead.length → test d = true → p.Leads d) :
    Runs (whileAt test p) c (Assembly.trees.rounds test p.read n c) ∧
      EverywhereAll Headed (Assembly.trees.rounds test p.read n c).made := by
  induction n generalizing c with
  | zero =>
      refine ⟨.stop (Bool.eq_false_iff.mpr fun ht => ?_), trivial⟩
      have := (h c (Nat.le_refl _) ht).opens.lt
      omega
  | succ n ih =>
      simp only [Assembly.rounds]
      split
      · rename_i ht
        obtain ⟨hp, ho⟩ := h c (Nat.le_refl _) ht
        have hlt := ho.lt
        obtain ⟨hr, hm⟩ := ih (c := (p.read c).rest) (by omega) fun d hd => h d (by omega)
        exact ⟨.round ht hp.runs hlt hr, everywhereAll_append.mpr ⟨hp.headed, hm⟩⟩
      · rename_i ht
        exact ⟨.stop (by simpa using ht), trivial⟩

theorem whileAt {test : Cursor → Bool}
    (h : ∀ d, d.ahead.length ≤ c.ahead.length → test d = true → p.Leads d) :
    (whileAt test p).Halts c :=
  have hr := rounds (Nat.le_refl _) h
  ⟨hr.1, hr.2⟩

theorem mark {kind : Cursor → Kind} (hp : p.Halts c) (hq : q.Halts (p.read c).rest)
    (ho : (p ++ q).Opens c) : (mark p kind q).Halts c :=
  ⟨.mark hp.runs hq.runs, ⟨ho.headed _, (append hp hq).headed⟩, trivial⟩

theorem grown {kind : Cursor → Option NodeKind} {a : Outcome (List Tree)} {n : Nat}
    (hn : a.rest.ahead.length ≤ n) (ha : ∃ t us, a.made = t :: us ∧ t.leaves ≠ [])
    (hh : EverywhereAll Headed a.made)
    (hq : ∀ d k, d.ahead.length ≤ a.rest.ahead.length → kind d = some k → q.Leads d) :
    Grown kind q a (Assembly.trees.grown kind q.read n a) ∧
      EverywhereAll Headed (Assembly.trees.grown kind q.read n a).made := by
  induction n generalizing a with
  | zero =>
      refine ⟨.stop (Option.eq_none_iff_forall_ne_some.mpr fun k hk => ?_), hh⟩
      have := (hq _ k (Nat.le_refl _) hk).opens.lt
      omega
  | succ n ih =>
      rw [Assembly.grown]
      split
      · rename_i hk; exact ⟨.stop hk, hh⟩
      · rename_i k hk
        obtain ⟨hr, ho⟩ := hq _ k (Nat.le_refl _) hk
        have hlt := ho.lt
        obtain ⟨t, us, hm, ht⟩ := ha
        have hn : Headed k (a.made ++ (q.read a.rest).made) := by rwa [hm]
        obtain ⟨hg, he⟩ := ih (a := ⟨[.node k (a.made ++ (q.read a.rest).made)], true,
            a.problems ++ (q.read a.rest).problems, (q.read a.rest).rest⟩)
          (Nat.le_of_lt_succ (Nat.lt_of_lt_of_le hlt ‹_›))
          ⟨_, [], by rw [hm]; rfl, leaves_node _ _ ht⟩
          ⟨⟨hn, everywhereAll_append.mpr ⟨hh, hr.headed⟩⟩, trivial⟩
          fun d k hd => hq d k (Nat.le_trans hd (Nat.le_of_lt hlt))
        exact ⟨.around hk hr.runs hlt hg, he⟩

theorem grow {kind : Cursor → Option NodeKind} (hp : p.Halts c) (ho : p.MayOpen c)
    (hq : ∀ d k, d.ahead.length ≤ c.ahead.length → kind d = some k → q.Leads d) :
    (grow p kind q).Halts c := by
  cases hs : (p.read c).single with
  | false =>
      have hg : (Production.grow p kind q).read c = p.read c := by simp [read_grow, hs]
      exact ⟨hg ▸ .alone hp.runs hs, hg ▸ hp.headed⟩
  | true =>
      have hg : (Production.grow p kind q).read c = Assembly.trees.grown kind q.read
          (p.read c).rest.ahead.length (p.read c) := by simp [read_grow, hs]
      have hr := length_rest_le p c
      obtain ⟨h, hh⟩ := grown (Nat.le_refl _) (ho.single hs) hp.headed
        fun d k hd => hq d k (Nat.le_trans hd hr)
      exact ⟨hg ▸ .grow hp.runs hs h, hg ▸ hh⟩

end Halts

namespace Leads

theorem take (h : c.ahead ≠ []) : take.Leads c := ⟨.take h, .take h⟩

theorem append (hp : p.Leads c) (hq : q.HaltsBelow c.ahead.length) : (p ++ q).Leads c :=
  ⟨.append hp.halts (hq _ hp.opens.lt), hp.opens.append⟩

theorem followed (hp : p.Leads c) (hq : ∀ d, q.Halts d) : (p ++ q).Leads c :=
  hp.append fun d _ => hq d

theorem node (h : p.Leads c) (k : Kind) : (node k p).Leads c :=
  ⟨.mark h.halts Halts.skip h.opens.append, h.opens.node k⟩

theorem look {next : Cursor → Production} (h : (next c).Leads c) : (look next).Leads c :=
  ⟨.look h.halts, h.opens⟩

theorem choose {test : Cursor → Bool} (hp : test c = true → p.Leads c)
    (hq : test c = false → q.Leads c) : (choose test p q).Leads c :=
  ⟨.choose (fun h => (hp h).halts) fun h => (hq h).halts,
    .choose (fun h => (hp h).opens) fun h => (hq h).opens⟩

theorem behind_report {problem : Problem} (h : q.Leads c) : (report problem ++ q).Leads c :=
  ⟨.append .report h.halts, MayOpen.opens_append (.inl rfl) fun _ => h.opens⟩

end Leads

namespace MayLead

theorem of_leads (h : p.Leads c) : p.MayLead c := ⟨h.halts, .inr h.opens⟩

theorem skip : skip.MayLead c := ⟨.skip, .inl rfl⟩

theorem report {problem : Problem} : (report problem).MayLead c := ⟨.report, .inl rfl⟩

theorem append (hp : p.MayLead c) (hq : q.MayLead (p.read c).rest) : (p ++ q).MayLead c :=
  ⟨.append hp.halts hq.halts, hp.mayOpen.append hq.mayOpen⟩

theorem leads_append (hp : p.MayLead c) (hq : q.Halts (p.read c).rest)
    (ho : (p.read c).made = [] → q.Opens (p.read c).rest) : (p ++ q).Leads c :=
  ⟨.append hp.halts hq, hp.mayOpen.opens_append ho⟩

theorem look {next : Cursor → Production} (h : (next c).MayLead c) : (look next).MayLead c :=
  ⟨.look h.halts, h.mayOpen⟩

theorem choose {test : Cursor → Bool} (hp : test c = true → p.MayLead c)
    (hq : test c = false → q.MayLead c) : (choose test p q).MayLead c :=
  ⟨.choose (fun h => (hp h).halts) fun h => (hq h).halts,
    .choose (fun h => (hp h).mayOpen) fun h => (hq h).mayOpen⟩

theorem whileAt {test : Cursor → Bool}
    (h : ∀ d, d.ahead.length ≤ c.ahead.length → test d = true → p.Leads d) :
    (whileAt test p).MayLead c :=
  ⟨.whileAt h, .whileAt fun ht => (h c (Nat.le_refl _) ht).opens⟩

theorem grow {kind : Cursor → Option NodeKind} (hp : p.MayLead c)
    (hq : ∀ d k, d.ahead.length ≤ c.ahead.length → kind d = some k → q.Leads d) :
    (grow p kind q).MayLead c :=
  ⟨.grow hp.halts hp.mayOpen hq, hp.mayOpen.grow⟩

end MayLead

theorem HaltsBelow.append {n : Nat} (hp : p.HaltsBelow n) (hq : q.HaltsBelow n) :
    (p ++ q).HaltsBelow n :=
  fun c hc => .append (hp c hc) (hq _ (Nat.lt_of_le_of_lt (length_rest_le p c) hc))

/-! ## Single lexemes -/

section Lexeme

variable {k : TokenKind}

theorem ahead_of_isAt (h : c.isAt k = true) (hk : k ≠ .eof) : c.ahead ≠ [] := fun ha => by
  have hc : c.kind = .eof := by simp [Cursor.kind, Cursor.peek, ha]
  have h : c.kind = k := by simpa [Cursor.isAt] using h
  exact hk (h.symm.trans hc)

theorem ahead_of_isName (h : c.kind.isName = true) : c.ahead ≠ [] := fun ha => by
  simp [Cursor.kind, Cursor.peek, ha, TokenKind.isName] at h

theorem halts_takeIf (hk : k ≠ .eof) : (takeIf k).Halts c :=
  .choose (fun h => .take (ahead_of_isAt h hk)) fun _ => .skip

theorem halts_expect (hk : k ≠ .eof) (missing : Problem) : (expect k missing).Halts c :=
  .choose (fun h => .take (ahead_of_isAt h hk)) fun _ => .report

theorem halts_require (hk : k ≠ .eof) : (require k).Halts c := halts_expect hk _

theorem halts_takeThen (hk : k ≠ .eof) (h : p.HaltsBelow c.ahead.length) :
    (takeThen k p).Halts c :=
  .choose (fun ht => ((Leads.take (ahead_of_isAt ht hk)).append h).halts) fun _ => .skip

theorem halts_requireThen (hk : k ≠ .eof) (h : ∀ d, p.Halts d) : (requireThen k p).Halts c :=
  .choose (fun ht => ((Leads.take (ahead_of_isAt ht hk)).followed h).halts) fun _ => .report

theorem Leads.required (h : p.Leads c) (hk : k ≠ .eof) : (p ++ require k).Leads c :=
  h.followed fun _ => halts_require hk

theorem leads_name (h : c.ahead ≠ []) : name.Leads c := (Leads.take h).node _

theorem halts_nameOr (missing : Problem) : (nameOr missing).Halts c :=
  .choose (fun h => (leads_name (ahead_of_isName h)).halts) fun _ => .report

end Lexeme

end Production

end AlRefactor
