import AlRefactor.Proofs.Grammar.Halting
import AlRefactor.Proofs.Grammar.Reads

/-!
# What is read does not hang on what follows

Where a production reads without a problem, it reads the same if something else follows, as long as
the next lexeme is one of the same class. Bounds on how deep things are nested do not matter either if
they are not reached. Where a production has to end with a lexeme of its own, anything may follow.
-/

namespace AlRefactor

open AlRefactor.Tree

/-! ## What may follow instead -/

/-- Lexemes that may follow in place of those that do. -/
abbrev Follow := List Lexeme → List Lexeme → Prop

/-- The first lexemes are of one class. -/
def Alike (κ : Lexeme → Lexeme) : Follow := fun ls ms => ls.head?.map κ = ms.head?.map κ

theorem Alike.refl {κ : Lexeme → Lexeme} (ls : List Lexeme) : Alike κ ls ls := rfl

/-- What stands in front of it decides, if there is something. -/
theorem Alike.append {κ : Lexeme → Lexeme} {us : List Lexeme} (h : us ≠ []) (ls ms : List Lexeme) :
    Alike κ (us ++ ls) (us ++ ms) := by
  cases us with
  | nil => exact absurd rfl h
  | cons u us => rfl

/-- Any lexemes go for any others. -/
def Whatever : Follow := fun _ _ => True

/-- What goes for something else still does behind the same lexemes. -/
class Stacks (R : Follow) : Prop where
  append {ls ms : List Lexeme} (us : List Lexeme) : R ls ms → R (us ++ ls) (us ++ ms)

instance (κ : Lexeme → Lexeme) : Stacks (Alike κ) where
  append us h := by
    cases us with
    | nil => exact h
    | cons u us => rfl

/-- What goes for what is ahead leads to the same. -/
def Settled {α : Type} (R : Follow) (f : Cursor → α) : Prop :=
  ∀ c d : Cursor, R c.ahead d.ahead → f c = f d

theorem Settled.imp {α : Type} {R S : Follow} {f : Cursor → α} (h : Settled S f)
    (hr : ∀ ls ms, R ls ms → S ls ms) : Settled R f :=
  fun c d hc => h c d (hr _ _ hc)

/-- What the next lexeme itself decides is the same for a cursor with nothing behind it. -/
theorem settled_of {α : Type} {f : Cursor → α} {κ : Lexeme → Lexeme}
    (h : ∀ n ls, f ⟨n, ls⟩ = f ⟨0, (ls.head?.map κ).toList⟩) : Settled (Alike κ) f := by
  rintro ⟨n, ls⟩ ⟨m, ms⟩ hc
  exact (h n ls).trans ((congrArg (fun l : Option Lexeme => f ⟨0, l.toList⟩) hc).trans (h m ms).symm)

namespace Production

/-- Where the one production reads fewer than `n` lexemes without a problem, the other one reads the
same, also if something else follows that goes for what does. -/
def SteadyAt (R : Follow) (n : Nat) (p p' : Production) (c : Cursor) : Prop :=
  (p.read c).problems = [] → (leavesOf (p.read c).made).length < n →
    ∀ rest, R (p.read c).rest.ahead rest → p'.Reads (p.read c).made rest

/-- Where the one production reads fewer than `n` lexemes without a problem, the other one reads the
same, whatever follows. -/
abbrev FirmAt : Nat → Production → Production → Cursor → Prop := SteadyAt Whatever

/-- A production that is steady, and the first thing it reads without a problem has a lexeme. -/
structure LedAt (R : Follow) (n : Nat) (p p' : Production) (c : Cursor) : Prop where
  steady : SteadyAt R (n + 1) p p' c
  opens : (p.read c).problems = [] → p.Opens c

/-- Rounds of a repetition that finds no problem. Each of them reads a lexeme. -/
inductive Rounds (test : Cursor → Bool) (p : Production) :
    Cursor → List (List Tree) → Cursor → Prop where
  | stop {c} : Rounds test p c [] c
  | round {c tss d} : test c = true → (p.read c).problems = [] → leavesOf (p.read c).made ≠ [] →
      Rounds test p (p.read c).rest tss d → Rounds test p c ((p.read c).made :: tss) d

/-- A round of a repetition that is steady, and found again to be one whatever follows. -/
structure SteadyRound (R : Follow) (n : Nat) (test : Cursor → Bool) (p p' : Production) (c : Cursor) :
    Prop where
  steady : SteadyAt R n p p' c
  reads : leavesOf (p.read c).made ≠ []
  test (m : Nat) (more : List Lexeme) : test ⟨m, leavesOf (p.read c).made ++ more⟩ = true
  follow (ls ms : List Lexeme) : R (leavesOf (p.read c).made ++ ls) (leavesOf (p.read c).made ++ ms)

variable {R S : Follow} {n : Nat} {p p' q q' : Production} {c : Cursor}

theorem SteadyAt.imp (h : SteadyAt S n p p' c) (hr : ∀ ls ms, R ls ms → S ls ms) :
    SteadyAt R n p p' c :=
  fun hn hl rest ha => h hn hl rest (hr _ _ ha)

theorem FirmAt.steady (h : FirmAt n p p' c) : SteadyAt R n p p' c := h.imp fun _ _ _ => trivial

theorem leaves_ne_nil_of_opens (h : p.Opens c) : leavesOf (p.read c).made ≠ [] := by
  obtain ⟨t, us, hm, ht⟩ := h
  rw [hm, leavesOf]
  exact fun hn => ht (List.append_eq_nil_iff.mp hn).1

/-! ## The rounds of a repetition -/

variable {test : Cursor → Bool}

theorem Rounds.leaves {tss : List (List Tree)} {d : Cursor} (h : Rounds test p c tss d) :
    leavesOf tss.flatten ++ d.ahead = c.ahead := by
  induction h with
  | stop => rfl
  | round _ _ _ _ ih =>
      rw [List.flatten_cons, leavesOf_append, List.append_assoc, ih]
      exact read_leaves p _

/-- Rounds can be cut in two. -/
theorem Rounds.split {uss tss : List (List Tree)} {e : Cursor} (h : Rounds test p c (uss ++ tss) e) :
    ∃ d, Rounds test p c uss d ∧ Rounds test p d tss e := by
  induction uss generalizing c with
  | nil => exact ⟨c, .stop, h⟩
  | cons us uss ih =>
      cases h with
      | round ht hn hm hr =>
          obtain ⟨d, hd, he⟩ := ih hr
          exact ⟨d, .round ht hn hm hd, he⟩

theorem rounds_of_read (hc : ∀ d, test d = true → d.ahead ≠ [])
    (hp : ∀ d, test d = true → (p.read d).problems = [] → leavesOf (p.read d).made ≠ [])
    (hn : ((whileAt test p).read c).problems = []) :
    ∃ tss, Rounds test p c tss ((whileAt test p).read c).rest ∧
      ((whileAt test p).read c).made = tss.flatten ∧
        test ((whileAt test p).read c).rest = false := by
  rw [read_whileAt] at hn ⊢
  obtain ⟨k, hk, hk'⟩ : ∃ k, c.ahead.length = k ∧ c.ahead.length ≤ k := ⟨_, rfl, Nat.le_refl _⟩
  rw [hk] at hn ⊢
  clear hk
  induction k generalizing c with
  | zero =>
      refine ⟨[], .stop, rfl, Bool.eq_false_iff.mpr fun ht => hc c ht ?_⟩
      exact List.eq_nil_of_length_eq_zero (Nat.le_zero.mp hk')
  | succ k ih =>
      simp only [Assembly.rounds] at hn ⊢
      split
      · rename_i ht
        rw [if_pos ht] at hn
        obtain ⟨hn, hn'⟩ := List.append_eq_nil_iff.mp hn
        have hm := hp c ht hn
        have hlen := congrArg List.length (read_leaves p c)
        have hpos := List.length_pos_iff.mpr hm
        rw [List.length_append] at hlen
        obtain ⟨tss, hr, hm', hs⟩ := ih hn' (by omega)
        exact ⟨_ :: tss, .round ht hn hm hr, congrArg ((p.read c).made ++ ·) hm', hs⟩
      · rename_i ht
        exact ⟨[], .stop, rfl, Bool.eq_false_iff.mpr ht⟩

theorem single_grown {kind : Cursor → Option NodeKind} {k : Nat} {a : Outcome (List Tree)}
    (h : a.single = true) : (Assembly.trees.grown kind q.read k a).single = true := by
  induction k generalizing a with
  | zero => exact h
  | succ k ih =>
      simp only [Assembly.grown]
      split
      · exact h
      · exact ih rfl

namespace SteadyAt

theorem skip : SteadyAt R n skip skip c := fun _ _ rest _ => reads_skip rest

theorem report (problem : Problem) : SteadyAt R n (report problem) q c := fun hn => by
  cases hn

theorem report_append (problem : Problem) : SteadyAt R n (Production.report problem ++ p) q c :=
  fun hn => absurd hn (List.cons_ne_nil _ _)

/-- There is nothing to show where nothing may be read. -/
theorem of_pos (h : 0 < n → SteadyAt R n p p' c) : SteadyAt R n p p' c :=
  fun hn hl => h (Nat.zero_lt_of_lt hl) hn hl

theorem take (hc : c.ahead ≠ []) : SteadyAt R n take take c := by
  obtain ⟨m, ls⟩ := c
  cases ls with
  | nil => exact absurd rfl hc
  | cons l ls => exact fun _ _ rest _ => reads_take l rest

theorem of_le {m : Nat} (h : SteadyAt R n p p' c) (hm : m ≤ n) : SteadyAt R m p p' c :=
  fun hn hl => h hn (Nat.lt_of_lt_of_le hl hm)

/-- The first part is followed by what the second one reads without a problem. -/
theorem append_of (hp : SteadyAt S n p p' c) (hq : SteadyAt R n q q' (p.read c).rest)
    (hr : (q.read (p.read c).rest).problems = [] → ∀ rest,
      R (q.read (p.read c).rest).rest.ahead rest →
        S (p.read c).rest.ahead (leavesOf (q.read (p.read c).rest).made ++ rest)) :
    SteadyAt R n (p ++ q) (p' ++ q') c := by
  intro hn hl rest ha
  rw [read_append] at hn hl ha ⊢
  obtain ⟨hn, hn'⟩ := List.append_eq_nil_iff.mp hn
  rw [leavesOf_append, List.length_append] at hl
  exact Reads.append (hp hn (by omega) _ (hr hn' rest ha)) (hq hn' (by omega) rest ha)

theorem append [Stacks R] (hp : SteadyAt R n p p' c) (hq : SteadyAt R n q q' (p.read c).rest) :
    SteadyAt R n (p ++ q) (p' ++ q') c := by
  refine append_of hp hq fun _ rest ha => ?_
  rw [← read_leaves q (p.read c).rest]
  exact Stacks.append _ ha

/-- What reads something is what the part in front of it is followed by. -/
theorem append_reading {κ : Lexeme → Lexeme} (hp : SteadyAt (Alike κ) n p p' c)
    (hq : SteadyAt R n q q' (p.read c).rest)
    (hr : (q.read (p.read c).rest).problems = [] → leavesOf (q.read (p.read c).rest).made ≠ []) :
    SteadyAt R n (p ++ q) (p' ++ q') c := by
  refine append_of hp hq fun hn rest _ => ?_
  rw [← read_leaves q (p.read c).rest]
  exact Alike.append (hr hn) _ _

theorem look [Stacks R] {next next' : Cursor → Production}
    (h : ∀ d, R c.ahead d.ahead → SteadyAt R n (next c) (next' d) c) :
    SteadyAt R n (look next) (look next') c := by
  intro hn hl rest hr
  refine Reads.look fun m => h ⟨m, _⟩ ?_ hn hl rest hr
  rw [← read_leaves (next c) c]
  exact Stacks.append _ hr

/-- What a look tells in front of what follows is asked for. -/
theorem look_of {next next' : Cursor → Production}
    (h : ((next c).read c).problems = [] → ∀ m rest,
      next' ⟨m, leavesOf ((next c).read c).made ++ rest⟩ = p')
    (hp : SteadyAt R n (next c) p' c) :
    SteadyAt R n (Production.look next) (Production.look next') c := fun hn hl rest ha =>
  Reads.look fun m => (congrArg (Production.Reads · _ _) (h hn m rest)).mpr (hp hn hl rest ha)

theorem choose [Stacks R] {test : Cursor → Bool} (ht : Settled R test)
    (hp : test c = true → SteadyAt R n p p' c) (hq : test c = false → SteadyAt R n q q' c) :
    SteadyAt R n (choose test p q) (choose test p' q') c := by
  refine look fun d hd => ?_
  rw [← ht c d hd]
  split
  · exact hp ‹_›
  · exact hq (Bool.eq_false_iff.mpr ‹_›)

/-- A choice that is made alike in front of what follows. -/
theorem choose_test {test : Cursor → Bool}
    (ht : ((Production.choose test p q).read c).problems = [] → ∀ m rest,
      R ((Production.choose test p q).read c).rest.ahead rest →
        test ⟨m, leavesOf ((Production.choose test p q).read c).made ++ rest⟩ = test c)
    (hp : test c = true → SteadyAt R n p p' c) (hq : test c = false → SteadyAt R n q q' c) :
    SteadyAt R n (Production.choose test p q) (Production.choose test p' q') c := by
  intro hn hl rest ha
  have ht := fun m => ht hn m rest ha
  rw [read_choose] at hn hl ha ht ⊢
  split at hn
  · rename_i h
    rw [if_pos h] at hl ha ht ⊢
    exact .choose_true (fun m => (ht m).trans h) (hp h hn hl rest ha)
  · rename_i h
    rw [if_neg h] at hl ha ht ⊢
    have h := Bool.eq_false_iff.mpr h
    exact .choose_false (fun m => (ht m).trans h) (hq h hn hl rest ha)

/-- A choice by the next lexeme, where more than that is to be alike. -/
theorem choose_of {κ : Lexeme → Lexeme} {test : Cursor → Bool} (hr : ∀ ls ms, R ls ms → Alike κ ls ms)
    (ht : Settled (Alike κ) test) (hp : test c = true → SteadyAt R n p p' c)
    (hq : test c = false → SteadyAt R n q q' c) :
    SteadyAt R n (Production.choose test p q) (Production.choose test p' q') c := by
  refine choose_test (fun _ m rest ha => (ht _ _ ?_).symm) hp hq
  rw [← read_leaves (Production.choose test p q) c]
  exact Stacks.append _ (hr _ _ ha)

/-- A choice by the next lexeme, which is read either way. -/
theorem choose_reading {κ : Lexeme → Lexeme} {test : Cursor → Bool} (ht : Settled (Alike κ) test)
    (hp : test c = true → SteadyAt R n p p' c) (hq : test c = false → SteadyAt R n q q' c)
    (hr : ((Production.choose test p q).read c).problems = [] →
      leavesOf ((Production.choose test p q).read c).made ≠ []) :
    SteadyAt R n (Production.choose test p q) (Production.choose test p' q') c := by
  refine choose_test (fun hn m rest _ => (ht _ _ ?_).symm) hp hq
  rw [← read_leaves (Production.choose test p q) c]
  exact Alike.append (hr hn) _ _

/-- Where a lexeme has to be found, the test sees it whatever follows. -/
theorem choose_report {κ : Lexeme → Lexeme} {test : Cursor → Bool} (ht : Settled (Alike κ) test)
    (hp : test c = true → SteadyAt R n p p' c)
    (hr : test c = true → (p.read c).problems = [] → leavesOf (p.read c).made ≠ []) (problem : Problem) :
    SteadyAt R n (Production.choose test p (Production.report problem))
      (Production.choose test p' (Production.report problem)) c := by
  refine choose_reading ht hp (fun _ => .report problem) fun hn => ?_
  rw [read_choose] at hn ⊢
  split at hn
  · rename_i h
    rw [if_pos h]
    exact hr h hn
  · cases hn

/-- Parts of a node, whose kind is told by what the first one leaves. -/
theorem mark_of {kind : Cursor → Kind} (hk : Settled S kind) (hp : SteadyAt S n p p' c)
    (hq : SteadyAt R n q q' (p.read c).rest)
    (hr : (q.read (p.read c).rest).problems = [] → ∀ rest, R (q.read (p.read c).rest).rest.ahead rest →
      S (p.read c).rest.ahead (leavesOf (q.read (p.read c).rest).made ++ rest)) :
    SteadyAt R n (Production.mark p kind q) (Production.mark p' kind q') c := by
  intro hn hl rest ha
  rw [read_mark] at hn hl ha ⊢
  obtain ⟨hn, hn'⟩ := List.append_eq_nil_iff.mp hn
  have hl : (leavesOf ((p.read c).made ++ (q.read (p.read c).rest).made)).length < n := by
    simpa only [leavesOf, leaves, List.append_nil] using hl
  rw [leavesOf_append, List.length_append] at hl
  have ha' := hr hn' rest ha
  exact (hp hn (by omega) _ ha').mark (fun m => (hk _ ⟨m, _⟩ ha').symm) (hq hn' (by omega) rest ha)

/-- Parts of a node, where the second one decides on its kind. -/
theorem mark_reading {κ : Lexeme → Lexeme} {kind : Cursor → Kind} (hk : Settled (Alike κ) kind)
    (hp : SteadyAt (Alike κ) n p p' c) (hq : SteadyAt R n q q' (p.read c).rest)
    (hr : (q.read (p.read c).rest).problems = [] → leavesOf (q.read (p.read c).rest).made ≠ []) :
    SteadyAt R n (Production.mark p kind q) (Production.mark p' kind q') c := by
  refine mark_of hk hp hq fun hn rest _ => ?_
  rw [← read_leaves q (p.read c).rest]
  exact Alike.append (hr hn) _ _

theorem mark [Stacks R] {kind : Cursor → Kind} (hk : Settled R kind) (hp : SteadyAt R n p p' c)
    (hq : SteadyAt R n q q' (p.read c).rest) : SteadyAt R n (mark p kind q) (mark p' kind q') c := by
  refine mark_of hk hp hq fun _ rest hr => ?_
  rw [← read_leaves q (p.read c).rest]
  exact Stacks.append _ hr

theorem node (k : Kind) (h : SteadyAt R n p p' c) : SteadyAt R n (node k p) (node k p') c := by
  intro hn hl rest hr
  rw [read_node] at hn hl hr ⊢
  exact (h hn (by simpa only [leavesOf, leaves, List.append_nil] using hl) rest hr).node k

/-! ### Repetitions -/

/-- Steady rounds are read again in front of others that go for what followed them. -/
theorem repeats {tss : List (List Tree)} {us : List Tree} {d : Cursor} (hr : Rounds test p c tss d)
    (h : ∀ d, test d = true → (p.read d).problems = [] → (p.read d).made ∈ tss →
      SteadyRound R n test p p' d)
    (hl : (leavesOf tss.flatten).length < n) {rest : List Lexeme} (ha : R d.ahead (leavesOf us ++ rest))
    (hs : Repeats test p' us rest) : Repeats test p' (tss.flatten ++ us) rest := by
  induction hr with
  | stop => exact hs
  | @round c tss d ht hn hm hr ih =>
      rw [List.flatten_cons, leavesOf_append, List.length_append] at hl
      have hp := h c ht hn (List.mem_cons_self ..)
      rw [List.flatten_cons, List.append_assoc]
      refine .cons (fun m => hp.test m _) (hp.steady hn (by omega) _ ?_) hm
        (ih (fun e he hp hu => h e he hp (List.mem_cons_of_mem _ hu)) (by omega) ha)
      rw [leavesOf_append, List.append_assoc]
      cases hr with
      | stop => exact ha
      | round ht hn _ hr =>
          rw [List.flatten_cons, leavesOf_append, List.append_assoc, ← read_leaves p]
          exact (h _ ht hn (List.mem_cons_of_mem _ (List.mem_cons_self ..))).follow _ _

/-- A repetition whose test may look further ahead than at the next lexeme. -/
theorem whileAt_of (ht : Settled R test) (hc : ∀ d, test d = true → d.ahead ≠ [])
    (hr : ∀ d, test d = true → (p.read d).problems = [] → leavesOf (p.read d).made ≠ [])
    (h : ∀ d, test d = true → (p.read d).problems = [] → SteadyRound R n test p p' d) :
    SteadyAt R n (whileAt test p) (whileAt test p') c := by
  intro hn hl rest ha
  obtain ⟨tss, hs, hm, hf⟩ := rounds_of_read hc hr hn
  rw [hm] at hl ⊢
  have hr : Repeats test p' (tss.flatten ++ []) rest := repeats hs (fun d hd hp _ => h d hd hp) hl ha
    (.nil fun m => (ht _ ⟨m, rest⟩ ha).symm.trans hf)
  rw [List.append_nil] at hr
  exact hr.reads

theorem whileAt {κ : Lexeme → Lexeme} (ht : Settled (Alike κ) test) (hc : ∀ d, test d = true → d.ahead ≠ [])
    (h : ∀ d, test d = true → SteadyAt (Alike κ) n p p' d ∧
      ((p.read d).problems = [] → leavesOf (p.read d).made ≠ [])) :
    SteadyAt (Alike κ) n (whileAt test p) (whileAt test p') c := by
  refine whileAt_of ht hc (fun d hd => (h d hd).2) fun d hd hn =>
    ⟨(h d hd).1, (h d hd).2 hn, fun m more => ?_, fun _ _ => Alike.append ((h d hd).2 hn) _ _⟩
  rw [← hd]
  refine (ht _ _ ?_).symm
  rw [← read_leaves p d]
  exact Alike.append ((h d hd).2 hn) _ _

/-! ### Nodes around nodes -/

theorem of_single (h : (p.read c).single = true) : ∃ k ts, (p.read c).made = [.node k ts] := by
  obtain ⟨_, k, ts, _, hm, _⟩ := (p.agrees c).chain h
  exact ⟨k, ts, hm⟩

/-- A production that makes a single node of trees it reads. -/
theorem readsNode {t : Tree} {rest : List Lexeme} (h : p.Reads [t] rest)
    (hs : ∀ d, (p.read d).problems = [] → (p.read d).single = true) : p.ReadsNode t rest := by
  intro m
  obtain ⟨i, hi⟩ := h.rest_eq m
  obtain ⟨hm, hn⟩ := h.outcome m
  have hl : leavesOf [t] = t.leaves := List.append_nil _
  rw [hl] at hi hm hn
  refine ⟨i, ?_⟩
  rw [← hi, ← hm, ← hn, ← hs _ hn]

variable (p') in
/-- The nodes that are opened around a node are opened around it as well where what follows starts
alike. -/
theorem grows [Stacks R] {kind : Cursor → Option NodeKind} (hk : Settled R kind)
    (hc : ∀ d k, kind d = some k → d.ahead ≠ [])
    (hq : ∀ d k, kind d = some k → SteadyAt R n q q' d ∧
      ((q.read d).problems = [] → leavesOf (q.read d).made ≠ []))
    (k : Nat) (a : Outcome (List Tree)) {t : Tree} (ha : a.made = [t])
    (hn : (Assembly.trees.grown kind q.read k a).problems = [])
    (hl : (leavesOf (Assembly.trees.grown kind q.read k a).made).length < n)
    (hk' : a.rest.ahead.length ≤ k) :
    ∃ u vs, (Assembly.trees.grown kind q.read k a).made = [u] ∧ u.leaves = t.leaves ++ vs ∧
      a.rest.ahead = vs ++ (Assembly.trees.grown kind q.read k a).rest.ahead ∧
      kind (Assembly.trees.grown kind q.read k a).rest = none ∧
      ∀ rest, R (Assembly.trees.grown kind q.read k a).rest.ahead rest →
        Grows p' kind q' t (vs ++ rest) → Grows p' kind q' u rest := by
  have hstop {a : Outcome (List Tree)} {t : Tree} (ha : a.made = [t]) (hs : kind a.rest = none) :
      ∃ u vs, a.made = [u] ∧ u.leaves = t.leaves ++ vs ∧ a.rest.ahead = vs ++ a.rest.ahead ∧
        kind a.rest = none ∧ ∀ rest, R a.rest.ahead rest →
          Grows p' kind q' t (vs ++ rest) → Grows p' kind q' u rest :=
    ⟨t, [], ha, (List.append_nil _).symm, rfl, hs, fun rest _ h => h⟩
  induction k generalizing a t with
  | zero =>
      refine hstop ha (Option.eq_none_iff_forall_ne_some.mpr fun j hj => hc _ j hj ?_)
      exact List.eq_nil_of_length_eq_zero (Nat.le_zero.mp hk')
  | succ k ih =>
      simp only [Assembly.grown] at hn hl ⊢
      split at hn
      · rename_i hs
        simpa only [hs] using hstop ha hs
      · rename_i j hj
        simp only [hj] at hl ⊢
        obtain ⟨hq, hne⟩ := hq _ j hj
        have hp := (List.append_eq_nil_iff.mp (problems_of_grown hn)).2
        have hne := hne hp
        have hleaves := read_leaves q a.rest
        have hlen := congrArg List.length hleaves
        have hpos := List.length_pos_iff.mpr hne
        rw [List.length_append] at hlen
        have hm : Assembly.trees.adopt j a.made (q.read a.rest).made =
            [.node j (t :: (q.read a.rest).made)] := by rw [ha]; rfl
        obtain ⟨u, vs, hu, hv, hr, hs, h⟩ := ih _ hm hn hl (by dsimp only; omega)
        have hv : u.leaves = t.leaves ++ (leavesOf (q.read a.rest).made ++ vs) := by
          rw [hv, leaves, leavesOf, List.append_assoc]
        refine ⟨u, _, hu, hv, ?_, hs, fun rest hr' hg => h rest hr' ?_⟩
        · rw [List.append_assoc, ← hr]
          exact hleaves.symm
        · rw [List.append_assoc] at hg
          have hvr : R (q.read a.rest).rest.ahead (vs ++ rest) := by
            have hr : (q.read a.rest).rest.ahead = _ := hr
            rw [hr]
            exact Stacks.append _ hr'
          refine hg.step (fun m => ?_) (hq hp ?_ _ hvr) hne
          · rw [← hj]
            refine (hk _ _ ?_).symm
            rw [← hleaves]
            exact Stacks.append _ hvr
          · rw [hu] at hl
            have := congrArg List.length hv
            simp only [leavesOf, List.append_nil, List.length_append] at hl this
            omega

theorem grow [Stacks R] {kind : Cursor → Option NodeKind} (hk : Settled R kind)
    (hc : ∀ d k, kind d = some k → d.ahead ≠ []) (hp : SteadyAt R n p p' c)
    (hs : ∀ d, (p.read d).problems = [] → (p.read d).single = true)
    (hs' : ∀ d, (p'.read d).problems = [] → (p'.read d).single = true)
    (hq : ∀ d k, kind d = some k → SteadyAt R n q q' d ∧
      ((q.read d).problems = [] → leavesOf (q.read d).made ≠ [])) :
    SteadyAt R n (grow p kind q) (grow p' kind q') c := by
  intro hn hl rest hr
  rw [read_grow] at hn hl hr ⊢
  have hpn : (p.read c).problems = [] := by
    split at hn
    · exact problems_of_grown hn
    · exact hn
  have hsp := hs c hpn
  rw [if_pos hsp] at hn hl hr ⊢
  obtain ⟨j, ts, hm⟩ := of_single hsp
  obtain ⟨u, vs, hu, hv, hrest, hstop, h⟩ :=
    grows p' hk hc hq _ _ hm hn hl (Nat.le_refl _)
  rw [hu]
  have ha : R (p.read c).rest.ahead (vs ++ rest) := by
    rw [hrest]
    exact Stacks.append _ hr
  have hpr : p'.Reads [.node j ts] (vs ++ rest) := by
    rw [← hm]
    refine hp hpn ?_ _ ha
    have := congrArg List.length hv
    rw [hu] at hl
    rw [hm]
    simp only [leavesOf, List.append_nil, List.length_append] at hl this ⊢
    omega
  refine (Grows.readsNode (h rest hr (readsNode hpr hs').grows) fun m => ?_).reads
  rw [← hstop]
  exact (hk _ _ hr).symm

end SteadyAt

/-! ## What starts with a lexeme -/

namespace LedAt

theorem imp (h : LedAt S n p p' c) (hr : ∀ ls ms, R ls ms → S ls ms) : LedAt R n p p' c :=
  ⟨h.steady.imp hr, h.opens⟩

theorem reads (h : LedAt R n p p' c) (hn : (p.read c).problems = []) :
    leavesOf (p.read c).made ≠ [] :=
  leaves_ne_nil_of_opens (h.opens hn)

theorem take (hc : c.ahead ≠ []) : LedAt R n take take c := ⟨.take hc, fun _ => .take hc⟩

theorem report (problem : Problem) : LedAt R n (report problem) q c :=
  ⟨.report problem, fun hn => by cases hn⟩

theorem report_append (problem : Problem) : LedAt R n (Production.report problem ++ p) q c :=
  ⟨.report_append problem, fun hn => absurd hn (List.cons_ne_nil _ _)⟩

/-- What follows the first lexeme has fewer lexemes to read. -/
theorem append_of (hp : LedAt S n p p' c) (hq : SteadyAt R n q q' (p.read c).rest)
    (hr : (q.read (p.read c).rest).problems = [] → ∀ rest, R (q.read (p.read c).rest).rest.ahead rest →
      S (p.read c).rest.ahead (leavesOf (q.read (p.read c).rest).made ++ rest)) :
    LedAt R n (p ++ q) (p' ++ q') c := by
  refine ⟨fun hn hl rest ha => ?_, fun hn => ?_⟩
  · rw [read_append] at hn hl ha ⊢
    obtain ⟨hn, hn'⟩ := List.append_eq_nil_iff.mp hn
    have hpos := List.length_pos_iff.mpr (hp.reads hn)
    rw [leavesOf_append, List.length_append] at hl
    exact Reads.append (hp.steady hn (by omega) _ (hr hn' rest ha)) (hq hn' (by omega) rest ha)
  · rw [read_append] at hn
    exact (hp.opens (List.append_eq_nil_iff.mp hn).1).append

theorem append_rest [Stacks R] (hp : LedAt R n p p' c) (hq : SteadyAt R n q q' (p.read c).rest) :
    LedAt R n (p ++ q) (p' ++ q') c := by
  refine hp.append_of hq fun _ rest hr => ?_
  rw [← read_leaves q (p.read c).rest]
  exact Stacks.append _ hr

theorem append [Stacks R] (hp : LedAt R n p p' c) (hq : ∀ d, SteadyAt R n q q' d) :
    LedAt R n (p ++ q) (p' ++ q') c :=
  hp.append_rest (hq _)

/-- What reads something is what the part in front of it is followed by. -/
theorem append_reading {κ : Lexeme → Lexeme} (hp : LedAt (Alike κ) n p p' c)
    (hq : SteadyAt R n q q' (p.read c).rest)
    (hr : (q.read (p.read c).rest).problems = [] → leavesOf (q.read (p.read c).rest).made ≠ []) :
    LedAt R n (p ++ q) (p' ++ q') c := by
  refine hp.append_of hq fun hn rest _ => ?_
  rw [← read_leaves q (p.read c).rest]
  exact Alike.append (hr hn) _ _

theorem look {κ : Lexeme → Lexeme} {next next' : Cursor → Production}
    (h : ∀ d, Alike κ c.ahead d.ahead → LedAt (Alike κ) n (next c) (next' d) c) :
    LedAt (Alike κ) n (look next) (look next') c :=
  ⟨.look fun d hd => (h d hd).steady, (h c (Alike.refl _)).opens⟩

theorem choose [Stacks R] {test : Cursor → Bool} (ht : Settled R test)
    (hp : test c = true → LedAt R n p p' c) (hq : test c = false → LedAt R n q q' c) :
    LedAt R n (choose test p q) (choose test p' q') c := by
  refine ⟨.choose ht (fun h => (hp h).steady) fun h => (hq h).steady, fun hn => ?_⟩
  rw [read_choose] at hn
  split at hn
  · exact .choose (fun h => (hp h).opens hn) fun h => absurd h (by simp_all)
  · exact .choose (fun h => absurd h (by simp_all)) fun h => (hq h).opens hn

theorem node (k : Kind) (h : LedAt R n p p' c) : LedAt R n (node k p) (node k p') c :=
  ⟨.node k h.steady, fun hn => (h.opens (by rwa [read_node] at hn)).node k⟩

theorem mark [Stacks R] {kind : Cursor → Kind} (hk : Settled R kind) (hp : LedAt R n p p' c)
    (hq : SteadyAt R (n + 1) q q' (p.read c).rest) :
    LedAt R n (mark p kind q) (mark p' kind q') c := by
  refine ⟨.mark hk hp.steady hq, fun hn => .mark (.append (hp.opens ?_))⟩
  rw [read_mark] at hn
  exact (List.append_eq_nil_iff.mp hn).1

theorem grow [Stacks R] {kind : Cursor → Option NodeKind} (hk : Settled R kind)
    (hc : ∀ d k, kind d = some k → d.ahead ≠ []) (hp : LedAt R n p p' c)
    (hs : ∀ d, (p.read d).problems = [] → (p.read d).single = true)
    (hs' : ∀ d, (p'.read d).problems = [] → (p'.read d).single = true)
    (hq : ∀ d k, kind d = some k → LedAt R n q q' d) :
    LedAt R n (grow p kind q) (grow p' kind q') c := by
  refine ⟨.grow hk hc hp.steady hs hs' fun d k hd => ⟨(hq d k hd).steady, (hq d k hd).reads⟩,
    fun hn => (hp.opens ?_).grow⟩
  rw [read_grow] at hn
  split at hn
  · exact problems_of_grown hn
  · exact hn

end LedAt

/-! ## Single lexemes -/

section Lexeme

variable {k : TokenKind}

theorem settled_isAt (k : TokenKind) : Settled (Alike id) (·.isAt k) :=
  settled_of fun _ ls => by cases ls <;> rfl

theorem settled_atAny (ks : List TokenKind) : Settled (Alike id) (·.atAny ks) :=
  settled_of fun _ ls => by cases ls <;> rfl

theorem settled_isName : Settled (Alike id) (·.kind.isName) :=
  settled_of fun _ ls => by cases ls <;> rfl

theorem SteadyAt.takeIf [Stacks R] (hk : k ≠ .eof) (ht : Settled R (·.isAt k)) :
    SteadyAt R n (takeIf k) (takeIf k) c :=
  .choose ht (fun h => .take (ahead_of_isAt h hk)) fun _ => .skip

theorem firm_expect (hk : k ≠ .eof) (missing : Problem) :
    FirmAt n (expect k missing) (expect k missing) c :=
  .choose_report (settled_isAt k) (fun h => .take (ahead_of_isAt h hk))
    (fun h _ => leaves_ne_nil_of_opens (.take (ahead_of_isAt h hk))) missing

/-- What is asked for is there where nothing is reported. -/
theorem leaves_choose_report {test : Cursor → Bool} {missing : Problem} (ho : test c = true → p.Opens c)
    (h : ((choose test p (report missing)).read c).problems = []) :
    leavesOf ((choose test p (report missing)).read c).made ≠ [] := by
  rw [read_choose] at h ⊢
  split at h
  · rename_i hc
    rw [if_pos hc]
    exact leaves_ne_nil_of_opens (ho hc)
  · cases h

theorem leaves_expect (hk : k ≠ .eof) {missing : Problem}
    (h : ((expect k missing).read c).problems = []) :
    leavesOf ((expect k missing).read c).made ≠ [] :=
  leaves_choose_report (fun hc => .take (ahead_of_isAt hc hk)) h

theorem leaves_require (hk : k ≠ .eof) (h : ((require k).read c).problems = []) :
    leavesOf ((require k).read c).made ≠ [] :=
  leaves_expect hk h

/-- What has to end with a lexeme of a kind is firm. -/
theorem SteadyAt.required {κ : Lexeme → Lexeme} (h : SteadyAt (Alike κ) n p p' c) (hk : k ≠ .eof) :
    FirmAt n (p ++ require k) (p' ++ require k) c :=
  h.append_reading (firm_expect hk _) (leaves_expect hk)

theorem steady_require (hk : k ≠ .eof) : SteadyAt R n (require k) (require k) c :=
  (firm_expect hk _).steady

theorem SteadyAt.takeThen [Stacks R] (hk : k ≠ .eof) (ht : Settled R (·.isAt k))
    (h : ∀ d, SteadyAt R n p p' d) : SteadyAt R n (takeThen k p) (takeThen k p') c :=
  .choose ht (fun hc => ((LedAt.take (ahead_of_isAt hc hk)).append h).steady.of_le (Nat.le_succ n))
    fun _ => .skip

theorem SteadyAt.requireThen [Stacks R] (hk : k ≠ .eof) (ht : Settled R (·.isAt k))
    (h : ∀ d, SteadyAt R n p p' d) : SteadyAt R n (requireThen k p) (requireThen k p') c :=
  .choose ht (fun hc => ((LedAt.take (ahead_of_isAt hc hk)).append h).steady.of_le (Nat.le_succ n))
    fun _ => .report _

theorem firm_name (hc : c.ahead ≠ []) : FirmAt n name name c := (SteadyAt.take hc).node _

theorem firm_nameOr (missing : Problem) : FirmAt n (nameOr missing) (nameOr missing) c :=
  .choose_report settled_isName (fun h => firm_name (ahead_of_isName h))
    (fun h _ => leaves_ne_nil_of_opens ((Opens.take (ahead_of_isName h)).node _)) missing

theorem leaves_nameOr {missing : Problem} (h : ((nameOr missing).read c).problems = []) :
    leavesOf ((nameOr missing).read c).made ≠ [] :=
  leaves_choose_report (fun hn => (Opens.take (ahead_of_isName hn)).node _) h

theorem LedAt.required [Stacks R] (h : LedAt R n p p' c) (hk : k ≠ .eof) :
    LedAt R n (p ++ require k) (p' ++ require k) c :=
  h.append fun _ => steady_require hk

/-- Where the bound on the depth is more than the number of lexemes ahead, the depth does not
matter. -/
theorem SteadyAt.look_length {f : Nat → Production}
    (h : ∀ n m m', n ≤ m → n ≤ m' → SteadyAt R n (f m) (f m') c) :
    SteadyAt R n (Production.look fun c => f (c.ahead.length + 1))
      (Production.look fun c => f (c.ahead.length + 1)) c := by
  intro hn _ rest hr
  refine Reads.look fun m => ?_
  have hl := congrArg List.length (read_leaves (f (c.ahead.length + 1)) c)
  rw [List.length_append] at hl
  exact h _ _ _ (by omega) (by simp) hn (Nat.lt_succ_self _) rest hr

end Lexeme

end Production

end AlRefactor
