import AlRefactor.Proofs.Action.Calls
import AlRefactor.Proofs.Action.Written
import Mathlib.Data.Prod.Lex

/-!
# The procedure that fits best

Scores are compared by their exact fits, then by those of the type word, then by the assignable ones. Of
several procedures that fit equally well the last one is taken, and its missing parameters have the types of
the arguments that are left over, under names of their own.
-/

namespace AlRefactor

open SyntaxTree

/-! ## Scores -/

namespace Score

/-- The numbers of a score in the order in which they count. -/
def key (s : Score) : Nat ×ₗ Nat ×ₗ Nat := toLex (s.exact, toLex (s.sameWord, s.assignable))

theorem le_iff {a b : Score} : a.le b ↔ a.key ≤ b.key := by
  simp [le, key, Prod.Lex.toLex_le_toLex]

/-- The score of parameters that fit in the given ways. -/
def ofFits (fits : List Fit) : Score :=
  ⟨fits.count .exact, fits.count .sameWord, fits.count .assignable⟩

theorem ofFits_cons (f : Fit) (fits : List Fit) : ofFits (f :: fits) = (ofFits fits).add f := by
  cases f <;> simp [ofFits, add]

end Score

variable {exactOnly : Bool} {arguments : List Argument} {ps : List Variable} {s : Score}

theorem zipWith_fit?_cons {p : Variable} {a : Argument} {fits : List Fit} :
    List.zipWith fit? (p :: ps) (a :: arguments) = fits.map some ↔
      ∃ f fs, fits = f :: fs ∧ fit? p a = some f ∧ List.zipWith fit? ps arguments = fs.map some := by
  cases fits <;> simp

/-- Parameters have a score just if each of them takes its argument, and then it counts how. -/
theorem score?_eq_some_iff : score? exactOnly ps arguments = some s ↔
    ∃ fits, List.zipWith fit? ps arguments = fits.map some ∧ (exactOnly → ∀ f ∈ fits, f = .exact) ∧
      s = .ofFits fits := by
  fun_induction score? exactOnly ps arguments generalizing s with
  | case1 p ps a as hf =>
      refine iff_of_false (by simp) ?_
      rintro ⟨fits, hz, -⟩
      obtain ⟨f, fs, -, hp, -⟩ := zipWith_fit?_cons.mp hz
      cases hf.symm.trans hp
  | case2 p ps a as f hf hx =>
      -- A fit that is not exact where only exact ones count.
      refine iff_of_false (by simp) ?_
      rintro ⟨fits, hz, he, -⟩
      obtain ⟨g, fs, rfl, hp, -⟩ := zipWith_fit?_cons.mp hz
      obtain rfl := Option.some.inj (hf.symm.trans hp)
      simp only [Bool.and_eq_true, bne_iff_ne] at hx
      exact hx.2 (he hx.1 f List.mem_cons_self)
  | case3 p ps a as f hf hx ih =>
      rw [Option.map_eq_some_iff]
      constructor
      · rintro ⟨r, hr, rfl⟩
        obtain ⟨fits, hz, he, rfl⟩ := ih.mp hr
        refine ⟨f :: fits, zipWith_fit?_cons.mpr ⟨f, fits, rfl, hf, hz⟩, fun h => ?_,
          (Score.ofFits_cons ..).symm⟩
        exact List.forall_mem_cons.mpr ⟨by simpa [h] using hx, he h⟩
      · rintro ⟨fits, hz, he, rfl⟩
        obtain ⟨g, fs, rfl, hp, htail⟩ := zipWith_fit?_cons.mp hz
        obtain rfl := Option.some.inj (hf.symm.trans hp)
        exact ⟨_, ih.mpr ⟨fs, htail, fun h => (List.forall_mem_cons.mp (he h)).2, rfl⟩,
          (Score.ofFits_cons ..).symm⟩
  | case4 ps as h =>
      have hz : List.zipWith fit? ps as = [] := by
        cases ps with
        | nil => rfl
        | cons p ps => cases as with
          | nil => rfl
          | cons a as => exact (h p ps a as rfl rfl).elim
      rw [hz]
      constructor
      · rintro ⟨⟩
        exact ⟨[], rfl, by simp, rfl⟩
      · rintro ⟨fits, hf, -, rfl⟩
        obtain rfl := List.map_eq_nil_iff.mp hf.symm
        rfl

/-- What takes an argument takes nothing by reference that cannot be assigned to. -/
theorem assignable_of_fit? {p : Variable} {a : Argument} {f : Fit} (h : fit? p a = some f) :
    p.byReference → a.assignable := by
  intro hp
  rw [fit?] at h
  split at h
  · cases h
  · rename_i hn
    simpa [hp] using hn

/-- An exact fit is one of equal types. -/
theorem type_of_fit? {p : Variable} {a : Argument} (h : fit? p a = some .exact) :
    p.type.trim.sameLetters a.parameter.type.trim := by
  rw [fit?] at h
  split at h
  · cases h
  split at h
  · assumption
  split at h
  · cases h
  · split at h <;> cases h

namespace CallTarget

/-! ## Choice -/

variable {methods : List Node} {config : Config} {m : Node} {c : CallTarget}

/-- A procedure has fewer parameters than there are arguments, and these have a score. -/
def Scores (exactOnly : Bool) (arguments : List Argument) (m : Node) (s : Score) : Prop :=
  m.parameters.length < arguments.length ∧ score? exactOnly m.parameters arguments = some s

theorem lacks_iff : Lacks exactOnly arguments m ↔ ∃ s, Scores exactOnly arguments m s := by
  rw [Lacks, Option.isSome_iff_exists]
  exact ⟨fun ⟨hl, s, hs⟩ => ⟨s, hl, hs⟩, fun ⟨s, hl, hs⟩ => ⟨hl, s, hs⟩⟩

theorem mem_candidates : (m, s) ∈ candidates exactOnly methods arguments ↔
    m ∈ methods ∧ Scores exactOnly arguments m s := by
  simp only [candidates, List.mem_filterMap, Scores, Option.ite_none_right_eq_some, Option.map_eq_some_iff]
  constructor
  · rintro ⟨n, hn, hl, r, hr, h⟩
    cases h
    exact ⟨hn, hl, hr⟩
  · rintro ⟨hm, hl, hs⟩
    exact ⟨m, hm, hl, s, hs, rfl⟩

/-- No entry is better than the best one, and every later one is worse. -/
theorem exists_best? {es : List (Node × Score)} {e : Node × Score} (h : best? es = some e) :
    ∃ before after, es = before ++ e :: after ∧ (∀ x ∈ before, x.2.key ≤ e.2.key) ∧
      ∀ x ∈ after, x.2.key < e.2.key := by
  induction es generalizing e with
  | nil => cases h
  | cons a es ih =>
      rw [best?] at h
      split at h
      · rename_i hb
        cases h
        rw [best?_eq_none_iff.mp hb]
        exact ⟨[], [], rfl, by simp, by simp⟩
      · rename_i b hb
        obtain ⟨before, after, rfl, hbefore, hafter⟩ := ih hb
        split at h
        · rename_i hle
          cases h
          exact ⟨a :: before, after, rfl, List.forall_mem_cons.mpr ⟨Score.le_iff.mp hle, hbefore⟩, hafter⟩
        · rename_i hle
          cases h
          have hlt : b.2.key < a.2.key := lt_of_not_ge fun h => hle (Score.le_iff.mpr h)
          refine ⟨[], before ++ b :: after, rfl, by simp, fun x hx => ?_⟩
          rcases List.mem_append.mp hx with hx | hx
          · exact (hbefore x hx).trans_lt hlt
          · rcases List.mem_cons.mp hx with rfl | hx
            · exact hlt
            · exact (hafter x hx).trans hlt

/-- A number in a list stands for a procedure whose score none in front of it beats and none behind it
reaches. -/
def IsBest (exactOnly : Bool) (arguments : List Argument) (t : SyntaxTree) (ids : List Nat) (m : Node)
    (s : Score) : Prop :=
  t.get? m.id = some m ∧ Scores exactOnly arguments m s ∧ ∃ before after, ids = before ++ m.id :: after ∧
    (∀ i ∈ before, ∀ n ∈ t.get? i, ∀ r, Scores exactOnly arguments n r → r.key ≤ s.key) ∧
    ∀ i ∈ after, ∀ n ∈ t.get? i, ∀ r, Scores exactOnly arguments n r → r.key < s.key

/-- The best candidate among the nodes of some numbers. -/
theorem isBest_of_best? {t : SyntaxTree} {ids : List Nat}
    (h : best? (candidates exactOnly (ids.filterMap t.get?) arguments) = some (m, s)) :
    IsBest exactOnly arguments t ids m s := by
  obtain ⟨before, after, he, hbefore, hafter⟩ := exists_best? h
  have hc (is : List Nat) : candidates exactOnly (is.filterMap t.get?) arguments = is.filterMap fun i =>
      (t.get? i).bind fun n => if n.parameters.length < arguments.length then
        (score? exactOnly n.parameters arguments).map fun r => (n, r) else none := List.filterMap_filterMap
  have hmem {is : List Nat} {i : Nat} {n : Node} {r : Score} (hi : i ∈ is) (hn : n ∈ t.get? i)
      (hr : Scores exactOnly arguments n r) : (n, r) ∈ candidates exactOnly (is.filterMap t.get?) arguments :=
    mem_candidates.mpr ⟨List.mem_filterMap.mpr ⟨i, hi, hn⟩, hr⟩
  rw [hc] at he
  obtain ⟨is, js, rfl, his, hjs⟩ := List.filterMap_eq_append_iff.mp he
  obtain ⟨ks, i, os, rfl, hks, hi, hos⟩ := List.filterMap_eq_cons_iff.mp hjs
  rw [← hc] at his hos
  obtain ⟨n, hn, hi⟩ := Option.bind_eq_some_iff.mp hi
  split at hi
  · rename_i hlt
    obtain ⟨r, hr, hi⟩ := Option.map_eq_some_iff.mp hi
    cases hi
    obtain ⟨-, rfl⟩ := get?_eq_some.mp hn
    refine ⟨hn, ⟨hlt, hr⟩, is ++ ks, os, by simp, fun j hj o ho q hq => ?_, fun j hj o ho q hq => ?_⟩
    · rcases List.mem_append.mp hj with hj | hj
      · exact hbefore _ (his ▸ hmem hj ho hq)
      · have hno := hks j hj
        rw [Option.mem_def.mp ho, Option.bind_some, if_pos hq.1, hq.2] at hno
        cases hno
    · exact hafter _ (hos ▸ hmem hj ho hq)
  · cases hi

/-! ## Missing parameters -/

theorem map_type_missingParameters (byReference : Bool) (taken : List Text) (as : List Argument) :
    (missingParameters byReference taken as).map (·.type) = as.map (·.parameter.type) := by
  induction as generalizing taken with
  | nil => rfl
  | cons a as ih =>
      rw [missingParameters, List.map_cons, List.map_cons, ih]
      rfl

/-- What is chosen takes the arguments that it has parameters for, none by reference that cannot be assigned
to, and it misses a parameter of the right type for each of the others. -/
structure Completes (exactOnly : Bool) (arguments : List Argument) (c : CallTarget) : Prop where
  length : c.method.parameters.length + c.missing.length = arguments.length
  types : c.missing.map (·.type) = (arguments.drop c.method.parameters.length).map (·.parameter.type)
  assignable : ∀ q ∈ c.method.parameters.zip arguments, q.1.byReference → q.2.assignable
  exact : exactOnly → ∀ q ∈ c.method.parameters.zip arguments,
    q.1.type.trim.sameLetters q.2.parameter.type.trim

theorem length_missingParameters (byReference : Bool) (taken : List Text) (as : List Argument) :
    (missingParameters byReference taken as).length = as.length := by
  simpa using congrArg List.length (map_type_missingParameters byReference taken as)

theorem Scores.exists_fit? (h : Scores exactOnly arguments m s) {q : Variable × Argument}
    (hq : q ∈ m.parameters.zip arguments) :
    ∃ f, fit? q.1 q.2 = some f ∧ (exactOnly → f = .exact) := by
  obtain ⟨fits, hz, he, -⟩ := score?_eq_some_iff.mp h.2
  have hm : fit? q.1 q.2 ∈ fits.map some := by
    rw [← hz, ← List.map_uncurry_zip_eq_zipWith]
    exact List.mem_map_of_mem hq
  obtain ⟨f, hf, hfit⟩ := List.mem_map.mp hm
  exact ⟨f, hfit.symm, fun hx => he hx f hf⟩

theorem Scores.completes (h : Scores exactOnly arguments m s) (byReference isPublisher : Bool)
    (taken : List Text) : Completes exactOnly arguments
      ⟨m, missingParameters byReference taken (arguments.drop m.parameters.length), isPublisher⟩ where
  length := by
    rw [length_missingParameters, List.length_drop]
    exact Nat.add_sub_cancel' (Nat.le_of_lt h.1)
  types := map_type_missingParameters ..
  assignable q hq := by
    obtain ⟨f, hf, -⟩ := h.exists_fit? hq
    exact assignable_of_fit? hf
  exact hx q hq := by
    obtain ⟨f, hf, he⟩ := h.exists_fit? hq
    obtain rfl := he hx
    exact type_of_fit? hf

/-- Nothing is chosen just if no procedure among the candidates has fewer parameters than there are arguments
and a score. Otherwise it is the last one of those with the greatest score, unless that is a node that is no
procedure at all. -/
theorem find?_best (exactOnly : Bool) (t : SyntaxTree) (ids : List Nat) (arguments : List Argument)
    (config : Config) :
    (find? exactOnly (ids.filterMap t.get?) arguments config = .ok none ↔
      ∀ i ∈ ids, ∀ m ∈ t.get? i, ∀ s, ¬ Scores exactOnly arguments m s) ∧
    (find? exactOnly (ids.filterMap t.get?) arguments config = .ok none ∨
      ∃ m s, IsBest exactOnly arguments t ids m s ∧
        if m.kind.isMethod then
          ∃ c, find? exactOnly (ids.filterMap t.get?) arguments config = .ok (some c) ∧ c.method = m ∧
            Completes exactOnly arguments c
        else find? exactOnly (ids.filterMap t.get?) arguments config = .error (.noRole m.kind)) := by
  have hnone : best? (candidates exactOnly (ids.filterMap t.get?) arguments) = none ↔
      ∀ i ∈ ids, ∀ m ∈ t.get? i, ∀ s, ¬ Scores exactOnly arguments m s := by
    rw [best?_eq_none_iff, candidates_eq_nil_iff]
    simp only [lacks_iff, not_exists, List.mem_filterMap, Option.mem_def]
    exact ⟨fun h i hi m hm => h m ⟨i, hi, hm⟩, fun h m ⟨i, hi, hm⟩ => h i hi m hm⟩
  rw [← hnone, find?]
  cases hb : best? (candidates exactOnly (ids.filterMap t.get?) arguments) with
  | none => exact ⟨iff_of_true rfl rfl, .inl rfl⟩
  | some e =>
      obtain ⟨m, s⟩ := e
      have hbest := isBest_of_best? hb
      dsimp only
      by_cases hk : m.kind.isMethod
      · have hr : m.roleOf = .ok m.role := if_pos hk
        rw [hr]
        refine ⟨iff_of_false (fun h => ?_) (Option.some_ne_none _), .inr ⟨m, s, hbest, ?_⟩⟩
        · cases h
        · rw [if_pos hk]
          exact ⟨_, rfl, rfl, hbest.2.1.completes ..⟩
      · have hr : m.roleOf = .error (.noRole m.kind) := if_neg hk
        rw [hr]
        refine ⟨iff_of_false (fun h => ?_) (Option.some_ne_none _), .inr ⟨m, s, hbest, ?_⟩⟩
        · cases h
        · rw [if_neg hk]
          rfl

/-- Every node can be a candidate: the whole file has no parameters, so it takes any arguments, and then it
has no role. -/
theorem find?_whole_file :
    let t := parse "codeunit 1 A \x7b procedure P(x: Integer) begin end; \x7d"
    let arguments : List Argument := [⟨.plain "x" "Integer", "x", true⟩]
    t.ok ∧ t.get? 0 = some t.root ∧ Scores false arguments t.root .zero ∧
      find? false ([0].filterMap t.get?) arguments .standard =
        .error (.noRole NodeKind.compilationUnit) := by
  intro t arguments
  have h : t.ok ∧ t.root.parameters.length < arguments.length ∧
      score? false t.root.parameters arguments = some .zero ∧ t.root.kind = NodeKind.compilationUnit := by
    decide +kernel
  obtain ⟨hok, hlt, hs, hk⟩ := h
  have h0 : t.get? 0 = some t.root := dif_pos t.entries_pos
  have hr : t.root.roleOf = .error (.noRole NodeKind.compilationUnit) := by
    rw [Node.roleOf, hk]
    rfl
  refine ⟨hok, h0, ⟨hlt, hs⟩, ?_⟩
  simp only [find?, candidates, List.filterMap_cons, h0, List.filterMap_nil, if_pos hlt, hs, Option.map_some,
    best?, hr]
  rfl

/-! ## Names of missing parameters -/

/-- The names of missing parameters differ from all that are taken and from each other. -/
theorem apart_missingParameters (byReference : Bool) (taken : List Text) (as : List Argument) :
    (∀ t ∈ taken, ∀ v ∈ missingParameters byReference taken as, t.sameName v.name = false) ∧
      (missingParameters byReference taken as).Pairwise fun v w => v.name.sameName w.name = false := by
  induction as generalizing taken with
  | nil => exact ⟨fun _ _ _ hv => absurd hv List.not_mem_nil, .nil⟩
  | cons a as ih =>
      rw [missingParameters]
      obtain ⟨htaken, hpair⟩ := ih (taken ++ [Text.fresh Text.sameName taken a.parameter.name])
      refine ⟨fun t ht => List.forall_mem_cons.mpr ⟨Text.fresh_not_same taken _ t ht, fun v hv => ?_⟩,
        .cons (fun v hv => ?_) hpair⟩
      · exact htaken t (List.mem_append_left _ ht) v hv
      · exact htaken _ (List.mem_append_right _ List.mem_cons_self) v hv

/-- A missing parameter has the name of its argument, or that name with a number behind it. It is no name any
more just if the number stands behind a closing quote. -/
def NamedAfter (a : Argument) (v : Variable) : Prop :=
  (v.name = a.parameter.name ∨ ∃ n, v.name = a.parameter.name ++ Text.ofNat n) ∧
    (v.name.isIdentifier ↔ v.name = a.parameter.name ∨ a.parameter.name.IsPlainName)

end CallTarget

namespace Text

open Lexeme

variable {t : Text}

/-- A name stays one with a number behind it just if it is plain. -/
theorem isIdentifier_numbered_iff (h : t.isIdentifier) (n : Nat) :
    (t ++ ofNat n).isIdentifier ↔ t.IsPlainName := by
  refine ⟨fun hn => ?_, fun hp => hp.isIdentifier_numbered n⟩
  obtain ⟨hp, -⟩ | ⟨u, rfl, hq⟩ := isIdentifier_iff.mp h
  · exact hp
  · -- The closing quote ends the token, and the number is a second one.
    have hs : scan '"' (u ++ '"' :: ofNat n) = (.quotedIdent, u.length + 1) := by
      rw [scan_doubleQuote, quotedLength?_append hq]
    obtain ⟨d, ds, hd⟩ := List.exists_cons_of_ne_nil (ofNat_ne_nil n)
    have hl : lex ('"' :: (u ++ ['"']) ++ ofNat n) =
        ⟨.quotedIdent, '"' :: (u ++ ['"'])⟩ :: lex (ofNat n) := by
      have he : '"' :: (u ++ ['"']) ++ ofNat n = '"' :: (u ++ '"' :: ofNat n) := by simp
      rw [he, lex, hs]
      dsimp only
      rw [show u ++ '"' :: ofNat n = (u ++ ['"']) ++ ofNat n by simp, List.take_left' (by simp),
        List.drop_left' (by simp)]
    rw [isIdentifier, hl, hd, lex] at hn
    cases hn

end Text

namespace CallTarget

theorem namedAfter_missingParameters (byReference : Bool) (taken : List Text) {as : List Argument}
    (h : ∀ a ∈ as, a.parameter.name.isIdentifier) :
    List.Forall₂ NamedAfter as (missingParameters byReference taken as) := by
  induction as generalizing taken with
  | nil => exact .nil
  | cons a as ih =>
      obtain ⟨ha, has⟩ := List.forall_mem_cons.mp h
      refine .cons ?_ (ih _ has)
      have hf := (Text.firstFree_fresh taken a.parameter.name).eq_or
      refine ⟨hf, ?_⟩
      rcases hf with hf | ⟨n, hf⟩
      · exact iff_of_true (by dsimp only [Variable.withReference, Variable.plain]; rwa [hf]) (.inl hf)
      · dsimp only [Variable.withReference, Variable.plain]
        rw [hf, Text.isIdentifier_numbered_iff ha, or_iff_right]
        exact fun h => Text.ofNat_ne_nil n (List.append_right_eq_self.mp h)

/-- The missing parameters are made from the arguments that the parameters of the procedure leave over. -/
theorem of_find? {methods : List Node} {config : Config} {c : CallTarget}
    (h : find? exactOnly methods arguments config = .ok (some c)) :
    ∃ byReference, c.missing = missingParameters byReference (c.method.parameters.map (·.name))
      (arguments.drop c.method.parameters.length) := by
  rw [find?] at h
  split at h
  · cases h
  · rename_i m s hb
    cases hr : m.roleOf with
    | error f => rw [hr] at h; cases h
    | ok role =>
        rw [hr] at h
        cases h
        exact ⟨_, rfl⟩

/-- The names of missing parameters differ from each other and from those that the procedure's parameters have. -/
theorem apart_find? {methods : List Node} {config : Config} {c : CallTarget}
    (h : find? exactOnly methods arguments config = .ok (some c)) :
    (∀ p ∈ c.method.parameters, ∀ v ∈ c.missing, p.name.sameName v.name = false) ∧
      c.missing.Pairwise fun v w => v.name.sameName w.name = false := by
  obtain ⟨byReference, hm⟩ := of_find? h
  obtain ⟨htaken, hpair⟩ := apart_missingParameters byReference (c.method.parameters.map (·.name))
    (arguments.drop c.method.parameters.length)
  exact hm ▸ ⟨fun p hp => htaken _ (List.mem_map_of_mem hp), hpair⟩

/-- If the arguments have names, those of the missing parameters differ from each other and from those of
the parameters that the procedure has, and each is its argument's or made from it. -/
theorem missing_named {methods : List Node} {config : Config} {c : CallTarget}
    (hn : ∀ a ∈ arguments, a.parameter.name.isIdentifier)
    (h : find? exactOnly methods arguments config = .ok (some c)) :
    (∀ p ∈ c.method.parameters, ∀ v ∈ c.missing, p.name.sameName v.name = false) ∧
      (c.missing.Pairwise fun v w => v.name.sameName w.name = false) ∧
      List.Forall₂ NamedAfter (arguments.drop c.method.parameters.length) c.missing := by
  obtain ⟨hparameters, hpair⟩ := apart_find? h
  obtain ⟨byReference, hm⟩ := of_find? h
  refine ⟨hparameters, hpair, ?_⟩
  rw [hm]
  exact namedAfter_missingParameters _ _ fun a ha => hn a (List.mem_of_mem_drop ha)

/-- A number behind a closing quote is not part of the name: a second parameter `"a b"` would be called
`"a b"2`. -/
theorem find?_numbers_quoted :
    let t := parse "codeunit 1 A \x7b procedure P(\"a b\": Integer) begin end; \x7d"
    let arguments : List Argument :=
      [⟨.plain "X" "Integer", "X", true⟩, ⟨.plain "\"a b\"" "Integer", "\"a b\"", true⟩]
    t.ok ∧ (∀ a ∈ arguments, a.parameter.name.isIdentifier) ∧
      ∃ c, find? true ([8].filterMap t.get?) arguments .standard = .ok (some c) ∧
        c.missing.map (·.name) = ["\"a b\"2".toList] ∧ Text.isIdentifier "\"a b\"2" = false := by
  intro t arguments
  have h : t.ok ∧ arguments.all (·.parameter.name.isIdentifier) ∧
      (find? true ([8].filterMap t.get?) arguments .standard).toOption.join.any
        fun c => c.missing.map (·.name) == ["\"a b\"2".toList] := by decide +kernel
  obtain ⟨hok, hn, hf⟩ := h
  obtain ⟨c, hc, hnames⟩ := (Option.any_eq_true ..).mp hf
  exact ⟨hok, List.all_eq_true.mp hn, c, Extraction.eq_ok_of_toOption (Option.join_eq_some_iff.mp hc),
    beq_iff_eq.mp hnames, by decide +kernel⟩

end CallTarget

end AlRefactor
