import Mathlib.Combinatorics.Enumerative.DyckWord
import AlRefactor.Proofs.Grammar.DeclaringMembers
import AlRefactor.Proofs.Grammar.Hereditary

/-!
# Brackets and braces

A stretch in brackets that is read without a problem goes up to the bracket that closes its first
one, unless the text ends before, and round and square brackets are not told apart. An object that
is read without a problem has its braces, unless the text ends with its header.
-/

namespace AlRefactor

open AlRefactor.Tree DyckStep

/-! ## Steps up and down -/

/-- An opening bracket is a step up, a closing one a step down. -/
def Kind.step? : Kind → Option DyckStep
  | .token .lParen | .token .lBracket => some U
  | .token .rParen | .token .rBracket => some D
  | _ => none

def Kind.steps (ks : List Kind) : List DyckStep := ks.filterMap Kind.step?

/-- The brackets are nested, and the first one is closed by the last one. Round and square ones are
not told apart. -/
def Kind.Nested (ks : List Kind) : Prop := ∃ w : DyckWord, w.IsNested ∧ w.toList = Kind.steps ks

/-- Steps that lead from a height down to the ground, which only the last one reaches. -/
structure Lands (height : Nat) (w : List DyckStep) : Prop where
  total : w.count D = w.count U + height
  above : ∀ i < w.length, (w.take i).count D < (w.take i).count U + height

namespace Lands

variable {height : Nat} {w : List DyckStep}

theorem up (h : Lands (height + 1) w) (hh : 0 < height) : Lands height (U :: w) where
  total := by
    have := h.total
    simp
    omega
  above
    | 0, _ => by simpa
    | i + 1, hi => by
        have := h.above i (Nat.lt_of_succ_lt_succ hi)
        simp
        omega

theorem down (h : Lands height w) : Lands (height + 1) (D :: w) where
  total := by
    have := h.total
    simp
    omega
  above
    | 0, _ => by simp
    | i + 1, hi => by
        have := h.above i (Nat.lt_of_succ_lt_succ hi)
        simp
        omega

theorem last : Lands 1 [D] where
  total := rfl
  above
    | 0, _ => by simp

/-- A way up and all the way down again. -/
theorem exists_nested (h : Lands 1 w) : ∃ p : DyckWord, p.IsNested ∧ p.toList = U :: w := by
  have hpos : ∀ i, 0 < i → i < (U :: w).length →
      ((U :: w).take i).count D < ((U :: w).take i).count U
    | i + 1, _, hi => by simpa using h.above i (Nat.lt_of_succ_lt_succ hi)
  have htotal : (U :: w).count U = (U :: w).count D := by simp [h.total]
  refine ⟨⟨U :: w, htotal, fun i => ?_⟩, ⟨nofun, fun i => hpos i⟩, rfl⟩
  rcases Nat.eq_zero_or_pos i with rfl | hi
  · exact Nat.le_refl 0
  · rcases Nat.lt_or_ge i (U :: w).length with hl | hl
    · exact Nat.le_of_lt (hpos i hi hl)
    · rw [List.take_of_length_le hl, htotal]

end Lands

/-- The steps of lexemes and of the leaves above them. -/
theorem Kind.steps_leaves (ls : List Lexeme) : Kind.steps ((ls.map Tree.leaf).map Tree.kind) =
    Kind.steps (ls.map (·.kind)) := by
  rw [List.map_map]
  rfl

namespace Production

/-- A stretch that is closed leads down to the ground. -/
theorem lands_balancedLength {depth : Nat} {ls : List Lexeme} (hd : 0 < depth)
    (hu : (balancedLength depth ls).2 = false) (hl : (balancedLength depth ls).1 < ls.length) :
    Lands depth (Kind.steps ((ls.take (balancedLength depth ls).1).map (·.kind))) := by
  fun_induction balancedLength depth ls with
  | case1 => exact absurd hl (Nat.lt_irrefl 0)
  | case2 d l ls hk r ih | case3 d l ls hk r ih =>
      have h := ih (Nat.succ_pos d) hu (Nat.lt_of_succ_lt_succ hl)
      simpa [Kind.steps, Kind.step?, hk] using h.up hd
  | case4 d l ls hk hle | case6 d l ls hk hle =>
      obtain rfl : d = 1 := by omega
      simpa [Kind.steps, Kind.step?, hk] using Lands.last
  | case5 d l ls hk hgt r ih | case7 d l ls hk hgt r ih =>
      obtain ⟨e, rfl⟩ : ∃ e, d = e + 1 := ⟨d - 1, by omega⟩
      have h := ih (by omega) hu (Nat.lt_of_succ_lt_succ hl)
      simpa [Kind.steps, Kind.step?, hk, r] using h.down
  | case8 | case9 => cases hu
  | case10 d l ls _ _ _ _ _ _ _ ih =>
      have h := ih hd hu (Nat.lt_of_succ_lt_succ hl)
      have hs : Kind.step? l.kind = none := by
        unfold Kind.step?
        split <;> simp_all
      simpa [Kind.steps, hs] using h

/-- A stretch behind which something is left to be read is nested. -/
theorem nested_balanced {c : Cursor} (hc : c.kind = .lBracket ∨ c.kind = .lParen)
    (hn : (balanced.read c).problems = []) (hr : (balanced.read c).rest.ahead ≠ []) :
    Kind.Nested ((balanced.read c).made.map Tree.kind) := by
  obtain ⟨m, _ | ⟨l, ls⟩⟩ := c
  · rcases hc with hc | hc <;> cases hc
  · have hl : l.kind = .lBracket ∨ l.kind = .lParen := hc
    obtain ⟨hm, hu, hlt⟩ := Grammar.made_balanced hl hn hr
    obtain ⟨w, hw, hs⟩ := (lands_balancedLength Nat.one_pos hu hlt).exists_nested
    refine ⟨w, hw, ?_⟩
    rw [hm, Kind.steps_leaves, hs]
    rcases hl with hl | hl <;> simp [Kind.steps, Kind.step?, hl]

end Production

/-! ## Attributes and arguments of sections -/

namespace Tree

/-- The brackets of an attribute or of the arguments of a section are nested. -/
def Matched (k : Kind) (ts : List Tree) : Prop :=
  k = NodeKind.memberAttribute ∨ k = NodeKind.sectionArguments → Kind.Nested (ts.map Tree.kind)

theorem matched_of_not_mem {k : Kind} (ts : List Tree) (hk : k ∉ Production.ownDeclarations) :
    Matched k ts := by
  rintro (rfl | rfl) <;> exact absurd (by decide) hk

/-- An object has a closing brace. -/
def Braced : Tree → Prop
  | .leaf _ => True
  | .node k ts => k.isObject → ∃ b ∈ ts, b.kind = TokenKind.rBrace

end Tree

namespace Grammar

open Production

/-- What is read without a problem is matched, unless nothing is left to be read behind it. -/
def Closes (p : Production) (c : Cursor) : Prop :=
  (p.read c).problems = [] → EverywhereAll Matched (p.read c).made ∨ (p.read c).rest.ahead = []

theorem rest_nil (p : Production) {c : Cursor} (h : c.ahead = []) : (p.read c).rest.ahead = [] := by
  have hl := length_rest_le p c
  rw [h] at hl
  exact List.eq_nil_of_length_eq_zero (Nat.le_zero.mp hl)

namespace Closes

variable {p q : Production} {c : Cursor}

theorem of_everywhere (h : EverywhereAll Matched (p.read c).made) : Closes p c := fun _ => .inl h

theorem append (hp : Closes p c) (hq : Closes q (p.read c).rest) : Closes (p ++ q) c := by
  intro h
  obtain ⟨h, h'⟩ := List.append_eq_nil_iff.mp h
  rcases hp h with hm | hr
  · exact (hq h').imp (fun hm' => everywhereAll_append.mpr ⟨hm, hm'⟩) id
  · exact .inr (rest_nil q hr)

theorem whileAt {test : Cursor → Bool} (hp : ∀ d, test d = true → Closes p d) :
    Closes (.whileAt test p) c := by
  intro h
  refine (whileAt_induction (I := fun c ts d =>
      d.ahead.length ≤ c.ahead.length ∧ (EverywhereAll Matched ts ∨ d.ahead = []))
    (fun c => ⟨Nat.le_refl _, .inl trivial⟩) (fun c ts d ht hn ⟨hl, hs⟩ => ?_) c h).2
  refine ⟨Nat.le_trans hl (length_rest_le p c), ?_⟩
  rcases hp c ht hn with hm | hr
  · exact hs.imp (fun hs => everywhereAll_append.mpr ⟨hm, hs⟩) id
  · rw [hr] at hl
    exact .inr (List.eq_nil_of_length_eq_zero (Nat.le_zero.mp hl))

theorem mark {kind : Cursor → Kind} (hk : ∀ d, kind d ≠ NodeKind.memberAttribute ∧
      kind d ≠ NodeKind.sectionArguments) (h : Closes (p ++ q) c) : Closes (.mark p kind q) c :=
  fun hn => (h hn).imp (fun hm => ⟨⟨fun hs => by simp [hk] at hs, hm⟩, trivial⟩) id

theorem grow {kind : Cursor → Option NodeKind}
    (hk : ∀ c k, kind c = some k → .node k ∉ ownBodies)
    (hp : Closes p c) (hq : ∀ d, Closes q d) : Closes (.grow p kind q) c := by
  intro h
  refine grow_induction (I := fun a => EverywhereAll Matched a.made ∨ a.rest.ahead = [])
    (fun a k ha hak hn => ?_) h hp
  rcases ha with hm | hr
  · exact (hq _ hn).imp (fun hm' => ⟨⟨matched_of_not_mem _ fun hd => hk _ _ hak (List.mem_append_right _ hd),
      everywhereAll_append.mpr ⟨hm, hm'⟩⟩, trivial⟩) id
  · exact .inr (rest_nil q hr)

end Closes

theorem hereditary_closes : Hereditary fun p => ∀ c, Closes p c where
  skip _ := .of_everywhere trivial
  take := by
    rintro ⟨n, _ | ⟨l, ls⟩⟩
    · exact .of_everywhere trivial
    · exact .of_everywhere ⟨trivial, trivial⟩
  report _ _ h := absurd h (List.cons_ne_nil _ _)
  append hp hq c := .append (hp c) (hq _)
  look h c := h c c
  whileAt hp _ := .whileAt fun d _ => hp d
  mark hk hp hq c := .mark (fun d => ⟨fun h => hk d (h ▸ by decide), fun h => hk d (h ▸ by decide)⟩)
    (.append (hp c) (hq _))

theorem closes_stretch {k : Kind} {c : Cursor} (hc : c.kind = .lBracket ∨ c.kind = .lParen) :
    Closes (node k balanced) c := by
  rw [Closes, read_node]
  intro hn
  by_cases hr : (balanced.read c).rest.ahead = []
  · exact .inr hr
  · exact .inl ⟨⟨fun _ => nested_balanced hc hn hr, makes_balanced.read⟩, trivial⟩

theorem closes_attributes (c : Cursor) : Closes attributes c :=
  .whileAt fun _ h => closes_stretch (.inl (kind_of_isAt h))

theorem closes_sectionArguments (c : Cursor) : Closes sectionArguments c := by
  rw [Closes, sectionArguments, read_choose]
  split
  · rename_i h
    exact closes_stretch (.inr (kind_of_isAt h))
  · exact Closes.of_everywhere (p := skip) trivial

theorem closes_member (c : Cursor) : Closes member c := by
  have h := hereditary_closes
  have he := h.expression fun hk hp hq c => .grow hk (hp c) hq
  have hw := h.expressionWithoutIn fun hk hp hq c => .grow hk (hp c) hq
  have hn {p : Production} {k : NodeKind} (hk : k ≠ .memberAttribute ∧ k ≠ .sectionArguments)
      (hp : ∀ c, Closes p c) (c : Cursor) : Closes (node k p) c :=
    .mark (fun _ => by simpa using hk) (.append (hp c) (h.skip _))
  refine h.memberUpTo he (fun p hp => hn (by decide) (h.conditional he hp))
    (fun p hp => hn (by decide) (h.loopParts he hw hp)) (fun k hk => hn ?_
    (h.sectionVariables closes_attributes)) closes_attributes closes_sectionArguments _ c
  rcases hk with rfl | rfl <;> decide

/-! ## Objects -/

theorem problems_append {p q : Production} {c : Cursor} (h : ((p ++ q).read c).problems = []) :
    (p.read c).problems = [] ∧ (q.read (p.read c).rest).problems = [] :=
  List.append_eq_nil_iff.mp h

/-- Behind a header that is read without a problem stands a brace or nothing. -/
theorem rest_header (p : Production) {c : Cursor} (hn : ((p ++ headerRest).read c).problems = []) :
    ((p ++ headerRest).read c).rest.isAt .lBrace = true ∨
      ((p ++ headerRest).read c).rest.ahead = [] := by
  have h := (problems_append hn).2
  rw [read_append]
  dsimp only
  generalize (p.read c).rest = d at h ⊢
  rw [headerRest, read_choose] at h ⊢
  split at h
  · rename_i ht
    rw [if_pos ht]
    simpa [Cursor.atEnd] using ht
  · cases h

/-- Between braces everything is matched. -/
theorem matched_memberList {c : Cursor} (hb : c.isAt .lBrace = true)
    (hn : ((memberList member).read c).problems = []) :
    EverywhereAll Matched ((memberList member).read c).made ∧
      ∃ b ∈ ((memberList member).read c).made, b.kind = TokenKind.rBrace := by
  obtain ⟨l, r, e, -, hr, -, hw, hrest, hm⟩ := read_memberList hb hn
  rw [hm]
  refine ⟨⟨trivial, everywhereAll_append.mpr ⟨?_, trivial, trivial⟩⟩, .leaf r, by simp, by
    simp [Tree.kind, hr]⟩
  refine (Closes.whileAt (fun d _ => closes_member d) hw).resolve_right fun he => ?_
  exact List.cons_ne_nil _ _ (hrest.symm.trans he)

/-- Members in braces, unless the text ends before them. -/
theorem matched_append_memberList {p : Production} {c : Cursor}
    (hp : EverywhereAll Matched (p.read c).made)
    (hb : (p.read c).rest.isAt .lBrace = true ∨ (p.read c).rest.ahead = [])
    (hn : ((p ++ memberList member).read c).problems = []) :
    EverywhereAll Matched ((p ++ memberList member).read c).made ∧
      ((∃ b ∈ ((p ++ memberList member).read c).made, b.kind = TokenKind.rBrace) ∨
        ((p ++ memberList member).read c).rest.ahead = []) := by
  have hl := (problems_append hn).2
  rw [read_append]
  dsimp only
  generalize (p.read c).rest = d at hb hl
  rcases hb with hb | he
  · obtain ⟨hm, b, hbm, hbk⟩ := matched_memberList hb hl
    exact ⟨everywhereAll_append.mpr ⟨hp, hm⟩, .inl ⟨b, List.mem_append_right _ hbm, hbk⟩⟩
  · have hs : (memberList member).read d = ⟨[], false, [], d⟩ := by
      have hb : d.isAt .lBrace = false := by simp [Cursor.isAt, Cursor.kind, Cursor.peek, he]
      rw [memberList, takeThen, read_choose, hb]
      rfl
    rw [hs, List.append_nil]
    exact ⟨hp, .inr he⟩

theorem matched_object {k : NodeKind} (hk : k ∈ NodeKind.objects) {c : Cursor}
    (hn : ((object k).read c).problems = []) :
    ∃ t, ((object k).read c).made = [t] ∧ Everywhere Matched t ∧
      (t.Braced ∨ ((object k).read c).rest.ahead = []) := by
  have hk : ∀ ts, Matched k ts := fun ts => matched_of_not_mem ts <|
    (by decide : ∀ k ∈ NodeKind.objects, Kind.node k ∉ ownDeclarations) k hk
  simp only [object, read_node] at hn ⊢
  have hh : (header.read c).rest.isAt .lBrace = true ∨ (header.read c).rest.ahead = [] :=
    rest_header _ (problems_append hn).1
  have hm := (hereditary_everywhere fun _ => matched_of_not_mem).header c
  obtain ⟨hm, hb⟩ := matched_append_memberList hm hh hn
  exact ⟨_, rfl, ⟨hk _, hm⟩, hb.imp (fun hb _ => hb) id⟩

theorem matched_directive {k : NodeKind} (hk : .node k ∉ ownKinds) (ho : k.isObject = false)
    (c : Cursor) : ∃ t, ((directive k).read c).made = [t] ∧ Everywhere Matched t ∧ t.Braced := by
  have hm := (hereditary_everywhere fun _ => matched_of_not_mem).directive hk c
  simp only [directive, read_node] at hm ⊢
  exact ⟨_, rfl, hm.1, fun h => absurd (ho.symm.trans h) Bool.false_ne_true⟩

theorem matched_declaration {c : Cursor} (hn : (declaration.read c).problems = []) :
    ∃ t, (declaration.read c).made = [t] ∧ Everywhere Matched t ∧
      (t.Braced ∨ (declaration.read c).rest.ahead = []) := by
  rw [declaration, read_look] at hn ⊢
  split
  · obtain ⟨t, ht, hm, hb⟩ := matched_directive (k := .namespaceDeclaration) (by decide) rfl c
    exact ⟨t, ht, hm, .inl hb⟩
  · rename_i h
    rw [if_neg h] at hn
    split
    · obtain ⟨t, ht, hm, hb⟩ := matched_directive (k := .usingDirective) (by decide) rfl c
      exact ⟨t, ht, hm, .inl hb⟩
    · rename_i h
      rw [if_neg h] at hn
      split
      · rename_i k hk
        rw [hk] at hn
        split at hk
        · exact matched_object (mem_objects_of_word hk) hn
        · cases hk
      · rename_i hk
        rw [hk] at hn
        exact absurd hn (by simp)

/-- In a file that is read without a problem every attribute and the arguments of every section are
matched, and every object but the last one has a closing brace. -/
theorem matched_declarations {c : Cursor} (hn : (declarations.read c).problems = []) :
    EverywhereAll Matched (declarations.read c).made ∧
      ∀ t ∈ (declarations.read c).made.dropLast, t.Braced := by
  refine (whileAt_induction (p := declaration) (I := fun c ts _ =>
      (c.ahead = [] → ts = []) ∧ EverywhereAll Matched ts ∧ ∀ t ∈ ts.dropLast, t.Braced)
    (fun _ => ⟨fun _ => rfl, trivial, by simp⟩) (fun c ts d ht hn ⟨he, hm, hb⟩ => ?_) c hn).2
  obtain ⟨t, hmade, ht', hbt⟩ := matched_declaration hn
  rw [hmade]
  refine ⟨fun hc => by simp [Cursor.atEnd, hc] at ht, ⟨ht', hm⟩, ?_⟩
  rcases ts with _ | ⟨u, us⟩
  · simp
  · have hbt : t.Braced := hbt.resolve_right fun hr => List.cons_ne_nil _ _ (he hr)
    simpa [hbt] using hb

end Grammar

end AlRefactor
