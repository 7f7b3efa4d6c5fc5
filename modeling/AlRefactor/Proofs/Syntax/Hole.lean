import AlRefactor.Proofs.Declaration.Objects

/-!
# Trees with a place for one more

A hole is some trees with a place for one more, among them or below one of them. What stands at the
place decides what the nodes around it can be.
-/

namespace AlRefactor

open AlRefactor.Tree

namespace Tree

/-- Some trees with a place for one more, among them or below one of them. -/
inductive Hole where
  | here (as bs : List Tree)
  | under (as : List Tree) (k : Kind) (o : Hole) (bs : List Tree)

namespace Hole

/-- The trees with one at the place. -/
def plug (t : Tree) : Hole → List Tree
  | here as bs => as ++ t :: bs
  | under as k o bs => as ++ .node k (o.plug t) :: bs

def before : Hole → List Lexeme
  | here as _ => leavesOf as
  | under as _ o _ => leavesOf as ++ o.before

def behind : Hole → List Lexeme
  | here _ bs => leavesOf bs
  | under _ _ o bs => o.behind ++ leavesOf bs

/-- The hole with more trees beside it. -/
def widen (xs ys : List Tree) : Hole → Hole
  | here as bs => here (xs ++ as) (bs ++ ys)
  | under as k o bs => under (xs ++ as) k o (bs ++ ys)

variable {o : Hole} {t u : Tree} {xs ys : List Tree}

theorem leaves_plug (o : Hole) (t : Tree) :
    leavesOf (o.plug t) = o.before ++ (t.leaves ++ o.behind) := by
  induction o with
  | here as bs => rw [plug, leavesOf_append, leavesOf, before, behind]
  | under as k o bs ih =>
      rw [plug, leavesOf_append, leavesOf, leaves, ih, before, behind]
      simp only [List.append_assoc]

theorem leaves_plug_ne_nil (o : Hole) (h : t.leaves ≠ []) : leavesOf (o.plug t) ≠ [] := by
  rw [leaves_plug]
  exact List.append_ne_nil_of_right_ne_nil _ (List.append_ne_nil_of_left_ne_nil h _)

@[simp] theorem plug_widen (o : Hole) (xs ys : List Tree) (t : Tree) :
    (o.widen xs ys).plug t = xs ++ (o.plug t ++ ys) := by
  cases o <;> simp [widen, plug]

/-- A place among two runs of trees is in one of them. -/
theorem split_append (h : o.plug t = xs ++ ys) :
    (∃ o' : Hole, o = o'.widen [] ys ∧ xs = o'.plug t) ∨
      ∃ o' : Hole, o = o'.widen xs [] ∧ ys = o'.plug t := by
  have hcut {as bs : List Tree} {u : Tree} (h : as ++ u :: bs = xs ++ ys) :
      (∃ bs', bs = bs' ++ ys ∧ xs = as ++ u :: bs') ∨ ∃ as', as = xs ++ as' ∧ ys = as' ++ u :: bs := by
    rcases List.append_eq_append_iff.mp h with ⟨zs, rfl, hz⟩ | ⟨zs, rfl, rfl⟩
    · cases zs with
      | nil => exact .inr ⟨[], by simp, by simpa using hz.symm⟩
      | cons z zs =>
          obtain ⟨rfl, rfl⟩ := List.cons.inj hz
          exact .inl ⟨zs, rfl, rfl⟩
    · exact .inr ⟨zs, rfl, rfl⟩
  cases o with
  | here as bs =>
      rcases hcut h with ⟨bs', rfl, rfl⟩ | ⟨as', rfl, rfl⟩
      · exact .inl ⟨here as bs', rfl, rfl⟩
      · exact .inr ⟨here as' bs, by simp [widen], rfl⟩
  | under as k o bs =>
      rcases hcut h with ⟨bs', rfl, rfl⟩ | ⟨as', rfl, rfl⟩
      · exact .inl ⟨under as k o bs', rfl, rfl⟩
      · exact .inr ⟨under as' k o bs, by simp [widen], rfl⟩

/-- A place among runs of trees is in one of them. -/
theorem split_flatten {tss : List (List Tree)} (h : o.plug t = tss.flatten) :
    ∃ (xss : List (List Tree)) (o' : Hole) (yss : List (List Tree)),
      tss = xss ++ o'.plug t :: yss ∧ o = o'.widen xss.flatten yss.flatten := by
  induction tss generalizing o with
  | nil => cases o <;> simp [plug] at h
  | cons ts tss ih =>
      rcases split_append (h.trans List.flatten_cons) with ⟨o', rfl, rfl⟩ | ⟨o', rfl, hc⟩
      · exact ⟨[], o', tss, rfl, rfl⟩
      · obtain ⟨xss, o'', yss, rfl, rfl⟩ := ih hc.symm
        refine ⟨ts :: xss, o'', yss, rfl, ?_⟩
        cases o'' <;> simp [widen]

/-- A place in one tree is that of the tree or below it. -/
theorem split_singleton (h : o.plug t = [u]) :
    o = here [] [] ∧ u = t ∨ ∃ k o', o = under [] k o' [] ∧ u = .node k (o'.plug t) := by
  cases o with
  | here as bs =>
      obtain ⟨rfl, h⟩ | ⟨_, h⟩ := List.append_eq_singleton_iff.mp h
      · obtain ⟨rfl, rfl⟩ := List.cons.inj h
        exact .inl ⟨rfl, rfl⟩
      · cases h
  | under as k o bs =>
      obtain ⟨rfl, h⟩ | ⟨_, h⟩ := List.append_eq_singleton_iff.mp h
      · obtain ⟨rfl, rfl⟩ := List.cons.inj h
        exact .inr ⟨k, o, rfl, rfl⟩
      · cases h

theorem split_nil : o.plug t ≠ [] := by
  cases o <;> simp [plug]

/-! ## Around members and objects -/

variable {k : Kind} {us : List Tree}

theorem of_rule (hr : Rule k us) (hu : u ∈ us) :
    ∃ j : NodeKind, k = j ∧ us.map Tree.symbol ∈ j.production.matches' ∧
      u.symbol ∈ us.map Tree.symbol := by
  cases k with
  | token k => exact hr.elim
  | node j => exact ⟨j, rfl, hr, List.mem_map_of_mem hu⟩

/-- A member stands in an object or in a section only. -/
theorem holder_of_member (hr : Rule k us) (hu : u ∈ us) (hk : u.kind.isMember) :
    k.isObject ∨ k = NodeKind.sectionDeclaration := by
  obtain ⟨j, rfl, hm, hs⟩ := of_rule hr hu
  by_cases ho : j.isObject
  · exact .inl ho
  · by_cases hj : j = .sectionDeclaration
    · exact .inr (congrArg Kind.node hj)
    · have := Pattern.all_symbols (NodeKind.symbols_of_not_isObject (Bool.eq_false_iff.mpr ho) hj) hm _ hs
      rw [kind_symbol, hk] at this
      cases this

/-- An object stands in a file only, and a file in nothing. -/
theorem holder_of_object (hr : Rule k us) (hu : u ∈ us)
    (hk : u.kind.isObject ∨ u.kind = NodeKind.compilationUnit) : k = NodeKind.compilationUnit := by
  obtain ⟨j, rfl, hm, hs⟩ := of_rule hr hu
  by_contra hj
  have := Pattern.all_symbols (NodeKind.symbols_of_ne_compilationUnit fun h => hj (congrArg Kind.node h)) hm _ hs
  rw [kind_symbol, Bool.and_eq_true] at this
  rcases hk with hk | hk <;> simp [hk] at this

theorem everywhere_of_mem {P : Kind → List Tree → Prop} {ts : List Tree} (h : EverywhereAll P ts)
    (hu : u ∈ ts) : Everywhere P u := by
  induction ts with
  | nil => cases hu
  | cons t ts ih =>
      rcases List.mem_cons.mp hu with rfl | hu
      · exact h.1
      · exact ih h.2 hu

/-- An object is not below anything in a file. -/
theorem not_below_of_object (h : Everywhere Rule (.node k (o.plug t))) (hk : t.kind.isObject) :
    k = NodeKind.compilationUnit := by
  induction o generalizing k with
  | here as bs => exact holder_of_object h.1 (List.mem_append_right _ List.mem_cons_self) (.inl hk)
  | under as j o bs ih =>
      have hmem : Tree.node j (o.plug t) ∈ plug t (under as j o bs) :=
        List.mem_append_right _ List.mem_cons_self
      exact holder_of_object h.1 hmem (.inr (ih (everywhere_of_mem h.2 hmem)))

/-- What a member is below is an object, a section or a file. -/
theorem holder_of_below (h : Everywhere Rule (.node k (o.plug t))) (hk : t.kind.isMember) :
    k.isObject ∨ k = NodeKind.sectionDeclaration ∨ k = NodeKind.compilationUnit := by
  induction o generalizing k with
  | here as bs =>
      exact (holder_of_member h.1 (List.mem_append_right _ List.mem_cons_self) hk).imp_right .inl
  | under as j o bs ih =>
      have hmem : Tree.node j (o.plug t) ∈ plug t (under as j o bs) :=
        List.mem_append_right _ List.mem_cons_self
      rcases ih (everywhere_of_mem h.2 hmem) with hj | hj | hj
      · exact .inr (.inr (holder_of_object h.1 hmem (.inl hj)))
      · exact (holder_of_member h.1 hmem (by rw [hj]; rfl)).imp_right .inl
      · exact .inr (.inr (holder_of_object h.1 hmem (.inr hj)))

/-- A member stands among some trees if one of them is a member or can have members below it. -/
theorem exists_holder (h : EverywhereAll Rule (o.plug t)) (hk : t.kind.isMember) :
    ∃ u ∈ o.plug t, u.kind.isMember ∨ u.kind.isObject ∨ u.kind = NodeKind.compilationUnit := by
  cases o with
  | here as bs => exact ⟨t, List.mem_append_right _ List.mem_cons_self, .inl hk⟩
  | under as k o bs =>
      have hmem : Tree.node k (o.plug t) ∈ plug t (under as k o bs) :=
        List.mem_append_right _ List.mem_cons_self
      refine ⟨_, hmem, ?_⟩
      rcases holder_of_below (everywhere_of_mem h hmem) hk with hk | hk | hk
      · exact .inr (.inl hk)
      · exact .inl (by simp only [Tree.kind, hk]; rfl)
      · exact .inr (.inr hk)

end Hole

end Tree

end AlRefactor
