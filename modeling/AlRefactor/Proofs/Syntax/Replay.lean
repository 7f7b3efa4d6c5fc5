import AlRefactor.Proofs.Grammar.Emission
import AlRefactor.Syntax.Arena

/-!
# Carrying out events builds the trees that they stand for

Events are carried out one after the other, whereas a tree is built node by node: what is below a
node is built between its opening and its closing. Both come to the same arena, also where a node
was opened around a complete one. Events that stand for trees are balanced.
-/

namespace AlRefactor

namespace Event

/-! ## Balanced events -/

/-- The number of open nodes after some events, unless they close one too many. -/
def depthAfter : Nat → List Event → Option Nat
  | d, [] => some d
  | d, .start _ _ :: es => depthAfter (d + 1) es
  | d + 1, .finish :: es => depthAfter d es
  | 0, .finish :: _ => none
  | d, .token _ :: es => depthAfter d es
  | d, .spent :: es => depthAfter d es

/-- Every node that is opened is closed, and none is closed that is not open. -/
def Balanced (es : List Event) : Prop := depthAfter 0 es = some 0

instance (es : List Event) : Decidable (Balanced es) := inferInstanceAs (Decidable (_ = _))

theorem depthAfter_assemble {ls : List Link}
    (h : ∀ l ∈ ls, ∀ d fs, depthAfter d (l.2 ++ fs) = depthAfter d fs) (d : Nat)
    (fs : List Event) : depthAfter d (assemble ls ++ fs) = depthAfter d fs := by
  induction ls with
  | nil => rfl
  | cons l ls ih =>
      have hl := h l List.mem_cons_self (d + 1)
      cases ls with
      | nil =>
          simp only [assemble, List.cons_append, List.append_assoc, depthAfter, List.nil_append, hl]
      | cons m ls =>
          simp only [assemble, List.cons_append, List.append_assoc, depthAfter, hl]
          exact ih fun m hm => h m (List.mem_cons_of_mem _ hm)

mutual
theorem Emission.depthAfter {a es ts b} (h : Emission a es ts b) (d : Nat) (fs : List Event) :
    depthAfter d (es ++ fs) = depthAfter d fs := by
  match h with
  | .nothing => rfl
  | .leaf => rfl
  | .end => rfl
  | .both h h' => rw [List.append_assoc, h.depthAfter, h'.depthAfter]
  | .chain h => exact depthAfter_assemble h.depthAfter d fs

theorem Chain.depthAfter {a ls k ts b} (h : Chain a ls k ts b) :
    ∀ l ∈ ls, ∀ d fs, depthAfter d (l.2 ++ fs) = depthAfter d fs := by
  match h with
  | .node h => simpa using h.depthAfter
  | .adopt h h' =>
      intro l hl
      rcases List.mem_append.mp hl with hl | hl
      · exact h.depthAfter l hl
      · obtain rfl := List.mem_singleton.mp hl
        exact h'.depthAfter
end

/-- The events of a production are balanced. -/
theorem balanced_emit (p : Production) (c : Cursor) : Balanced (p.emit c).made := by
  have h := (p.agrees c).emission.depthAfter 0 []
  rwa [List.append_nil] at h

/-! ## Linked events -/

/-- A start that notes where the next node around its node starts is right about it. -/
def Linked (es : List Event) : Prop :=
  ∀ (i : Nat) (k : Kind) (d : Nat), es[i]? = some (.start k (some d)) →
    ∃ (k' : Kind) (adopter : Option Nat), es[i + d]? = some (.start k' adopter)

theorem Linked.append {es fs : List Event} (h : Linked es) (h' : Linked fs) : Linked (es ++ fs) := by
  intro i k d hi
  rcases Nat.lt_or_ge i es.length with hlt | hge
  · rw [List.getElem?_append_left hlt] at hi
    obtain ⟨k', adopter, hd⟩ := h i k d hi
    have hlt := (List.getElem?_eq_some_iff.mp hd).1
    exact ⟨k', adopter, by rw [List.getElem?_append_left hlt, hd]⟩
  · rw [List.getElem?_append_right hge] at hi
    obtain ⟨k', adopter, hd⟩ := h' _ k d hi
    exact ⟨k', adopter, by rw [List.getElem?_append_right (by omega), ← hd, Nat.sub_add_comm hge]⟩

/-- An event that is no start behind which a node is noted. -/
theorem linked_singleton {e : Event} (h : ∀ k d, e ≠ .start k (some d)) : Linked [e] := by
  intro i k d hi
  cases i with
  | zero => exact absurd (Option.some.inj hi) (h k d)
  | succ => cases hi

/-- The first link of a chain notes where the second one starts. -/
theorem linked_assemble {ls : List Link} (h : ∀ l ∈ ls, Linked l.2) : Linked (assemble ls) := by
  induction ls with
  | nil => nofun
  | cons l ls ih =>
      have hl := h l List.mem_cons_self
      have hf : Linked [Event.finish] := linked_singleton nofun
      cases ls with
      | nil =>
          have hs : Linked [Event.start l.1 none] :=
            linked_singleton fun _ _ h => nomatch (Event.start.inj h).2
          exact (hs.append hl).append hf
      | cons m ls =>
          have ih := ih fun n hn => h n (.tail _ hn)
          have hs : assemble (l :: m :: ls) = .start l.1 (some (l.2.length + 2)) ::
              (l.2 ++ ([Event.finish] ++ assemble (m :: ls))) := by simp [assemble]
          rw [hs]
          intro i k d hi
          cases i with
          | zero =>
              cases hi
              obtain ⟨k', adopter, rest, ha⟩ : ∃ k' adopter rest,
                  assemble (m :: ls) = .start k' adopter :: rest := by
                cases ls <;> exact ⟨_, _, _, rfl⟩
              refine ⟨k', adopter, ?_⟩
              rw [Nat.zero_add, List.getElem?_cons_succ, List.getElem?_append_right (by omega), ha]
              simp
          | succ i =>
              obtain ⟨k', adopter, hd⟩ := (hl.append (hf.append ih)) i k d hi
              exact ⟨k', adopter, by rw [Nat.succ_add, List.getElem?_cons_succ, hd]⟩

mutual
theorem Emission.linked {a es ts b} (h : Emission a es ts b) : Linked es := by
  match h with
  | .nothing => exact nofun
  | .leaf => exact linked_singleton nofun
  | .end => exact linked_singleton nofun
  | .both h h' => exact h.linked.append h'.linked
  | .chain h => exact linked_assemble h.linked

theorem Chain.linked {a ls k ts b} (h : Chain a ls k ts b) : ∀ l ∈ ls, Linked l.2 := by
  match h with
  | .node h => simpa using h.linked
  | .adopt h h' =>
      intro l hl
      rcases List.mem_append.mp hl with hl | hl
      · exact h.linked l hl
      · obtain rfl := List.mem_singleton.mp hl
        exact h'.linked
end

theorem linked_emit (p : Production) (c : Cursor) : Linked (p.emit c).made :=
  (p.agrees c).emission.linked

/-! ## Starts that were carried out together -/

/-- The events of a link whose start is spent. -/
def Link.spent (l : Link) : List Event := .spent :: l.2 ++ [.finish]

theorem adopters_append (es fs : List Event) (k : Kind) (adopter : Option Nat) :
    adopters (some (es.length + 1)) (es ++ .start k adopter :: fs) =
      (k :: (adopters adopter fs).1, es ++ .spent :: (adopters adopter fs).2) := by
  induction es with
  | nil => simp [adopters]
  | cons e es ih =>
      simp only [List.length_cons, List.cons_append, adopters, ih]

theorem adopters_assemble (l : Link) (ls : List Link) (es fs : List Event) :
    adopters (some (es.length + 1)) (es ++ assemble (l :: ls) ++ fs) =
      ((l :: ls).map (·.1), es ++ (l :: ls).flatMap Link.spent ++ fs) := by
  induction ls generalizing l es with
  | nil => simp [assemble, adopters_append, adopters, Link.spent]
  | cons m ls ih =>
      have h := ih m (l.2 ++ [.finish])
      have hn : (l.2 ++ [Event.finish]).length + 1 = l.2.length + 2 := by simp
      have ha : es ++ assemble (l :: m :: ls) ++ fs =
          es ++ .start l.1 (some (l.2.length + 2)) ::
            (l.2 ++ [.finish] ++ assemble (m :: ls) ++ fs) := by simp [assemble]
      rw [hn] at h
      rw [ha, adopters_append, h]
      simp [Link.spent]

end Event

/-! ## Building trees -/

namespace Builder

open Event AlRefactor.Tree

mutual
/-- Builds a tree: what is below a node between its opening and its closing. -/
def lay (text : Text) (b : Builder) : Tree → Builder
  | .leaf l => b.addToken l.kind
  | .node k ts => (layAll text (b.openNode text k) ts).closeNode text

def layAll (text : Text) (b : Builder) : List Tree → Builder
  | [] => b
  | t :: ts => layAll text (lay text b t) ts
end

theorem layAll_append (text : Text) (b : Builder) (ts us : List Tree) :
    b.layAll text (ts ++ us) = (b.layAll text ts).layAll text us := by
  induction ts generalizing b with
  | nil => rfl
  | cons t ts ih => simp only [List.cons_append, layAll, ih]

/-- The significant lexemes that are not leaves yet. -/
def lexemes (b : Builder) : List Lexeme :=
  (b.tokens.filter fun p => !p.isLayout).map (·.token.toLexeme)

@[simp] theorem tokens_add (b : Builder) (k : Kind) (span full : Span) :
    (b.add k span full).tokens = b.tokens := rfl

@[simp] theorem lexemes_openNode (text : Text) (b : Builder) (k : Kind) :
    (b.openNode text k).lexemes = b.lexemes := by
  simp [openNode, lexemes]

@[simp] theorem lexemes_closeNode (text : Text) (b : Builder) :
    (b.closeNode text).lexemes = b.lexemes := by
  unfold closeNode; split <;> rfl

theorem lexemes_eq_dropWhile (b : Builder) : b.lexemes =
    ((b.tokens.dropWhile (·.isLayout)).filter fun p => !p.isLayout).map (·.token.toLexeme) := by
  rw [lexemes]
  induction b.tokens with
  | nil => rfl
  | cons p ps ih =>
      by_cases h : p.isLayout
      · simpa [h] using ih
      · simp [h]

theorem isLayout_of_dropWhile {ps qs : List Placed} {q : Placed}
    (h : ps.dropWhile (·.isLayout) = q :: qs) : q.isLayout = false := by
  have := List.head?_dropWhile_not (fun p : Placed => p.isLayout) ps
  simpa [h] using this

theorem addToken_of_lexemes_nil (b : Builder) (k : TokenKind) (h : b.lexemes = []) :
    b.addToken k = b := by
  rw [lexemes_eq_dropWhile] at h
  unfold addToken
  split
  · rfl
  · rename_i p ps hp
    simp [hp, isLayout_of_dropWhile hp] at h

theorem exists_placed (b : Builder) {l : Lexeme} {ls : List Lexeme} (h : b.lexemes = l :: ls) :
    ∃ q qs, b.tokens.dropWhile (·.isLayout) = q :: qs ∧ q.token.toLexeme = l ∧
      (qs.filter fun p => !p.isLayout).map (·.token.toLexeme) = ls := by
  rw [lexemes_eq_dropWhile] at h
  cases hp : b.tokens.dropWhile (·.isLayout) with
  | nil => simp [hp] at h
  | cons q qs =>
      simp only [hp, List.filter_cons, isLayout_of_dropWhile hp, Bool.not_false, ↓reduceIte,
        List.map_cons, List.cons.injEq] at h
      exact ⟨q, qs, rfl, h⟩

theorem addToken_eq (b : Builder) (k : TokenKind) {q : Placed} {qs : List Placed}
    (h : b.tokens.dropWhile (·.isLayout) = q :: qs) :
    b.addToken k = { b.add k q.token.span q.full with tokens := qs } := by
  simp [addToken, h]

mutual
theorem lexemes_lay (text : Text) : (t : Tree) → (b : Builder) → (rest : List Lexeme) →
    b.lexemes = t.leaves ++ rest → (b.lay text t).lexemes = rest
  | .leaf l, b, rest, h => by
      obtain ⟨q, qs, hq, _, hr⟩ := b.exists_placed h
      rw [lay, addToken_eq b _ hq]
      exact hr
  | .node k ts, b, rest, h => by
      rw [lay, lexemes_closeNode]
      exact lexemes_layAll text ts _ rest (by rwa [lexemes_openNode])

theorem lexemes_layAll (text : Text) : (ts : List Tree) → (b : Builder) → (rest : List Lexeme) →
    b.lexemes = leavesOf ts ++ rest → (b.layAll text ts).lexemes = rest
  | [], _, _, h => h
  | t :: ts, b, rest, h => by
      rw [leavesOf, List.append_assoc] at h
      exact lexemes_layAll text ts _ rest (lexemes_lay text t b _ h)
end

/-! ## Carrying out the events of trees -/

theorem replay_chain_start (text : Text) (b : Builder) (l : Link) (ls : List Link)
    (fs : List Event) :
    replay text (assemble (l :: ls) ++ fs) b =
      replay text ((l :: ls).flatMap Link.spent ++ fs)
        (((l :: ls).map (·.1)).reverse.foldl (openNode text) b) := by
  cases ls with
  | nil => simp [assemble, replay, adopters, Link.spent]
  | cons m ls =>
      have h := adopters_assemble m ls (l.2 ++ [.finish]) fs
      have hn : (l.2 ++ [Event.finish]).length + 1 = l.2.length + 2 := by simp
      have ha : assemble (l :: m :: ls) ++ fs = .start l.1 (some (l.2.length + 2)) ::
          (l.2 ++ [.finish] ++ assemble (m :: ls) ++ fs) := by simp [assemble]
      rw [hn] at h
      rw [ha, replay, h]
      simp [Link.spent, replay]

mutual
theorem replay_emission (text : Text) {a es ts c} (h : Emission a es ts c) (b : Builder)
    (fs : List Event) (hb : b.lexemes = a) :
    replay text (es ++ fs) b = replay text fs (b.layAll text ts) := by
  match h with
  | .nothing => rfl
  | .leaf => simp [replay, layAll, lay]
  | .end => simp [replay, layAll, addToken_of_lexemes_nil b _ hb]
  | .both h h' =>
      rw [List.append_assoc, replay_emission text h b _ hb, replay_emission text h', layAll_append]
      exact lexemes_layAll text _ b _ (hb.trans h.leaves.symm)
  | .chain h =>
      have hc := replay_chain text h b fs hb
      obtain ⟨l, ms, rfl⟩ := h.exists_cons
      rw [replay_chain_start, hc]
      rfl

theorem replay_chain (text : Text) {a ls k ts c} (h : Chain a ls k ts c) (b : Builder)
    (fs : List Event) (hb : b.lexemes = a) :
    replay text (ls.flatMap Link.spent ++ fs) ((ls.map (·.1)).reverse.foldl (openNode text) b) =
      replay text fs (b.lay text (.node k ts)) := by
  match h with
  | .node h =>
      have hr := replay_emission text h (b.openNode text k) (.finish :: fs) (by simpa)
      simpa [Link.spent, replay, lay] using hr
  | @Chain.adopt _ _ _ ls k₀ us _ es _ h h' =>
      have hb' : (b.openNode text k).lexemes = a := by simpa
      have hl := lexemes_lay text (.node k₀ us) _ _ (hb'.trans (h.leaves.symm.trans rfl))
      have hr := replay_chain text h _ (Link.spent (k, es) ++ fs) hb'
      have hr' := replay_emission text h' _ (.finish :: fs) hl
      simp only [List.flatMap_append, List.flatMap_cons, List.flatMap_nil, List.append_nil,
        List.append_assoc, List.map_append, List.map_cons, List.map_nil, List.reverse_append,
        List.reverse_cons, List.reverse_nil, List.nil_append, List.cons_append, List.foldl_cons]
      rw [hr]
      simpa [Link.spent, replay, lay, layAll] using hr'
end

end Builder

end AlRefactor
