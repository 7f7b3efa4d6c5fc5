import AlRefactor.Proofs.Grammar.Reading

/-!
# Events and the trees they stand for

The events of a production stand for the trees that it makes of the same lexemes. A tree whose
outermost nodes were opened around complete ones is a chain of links, each of which notes how far
behind it the next one starts.
-/

namespace AlRefactor

open AlRefactor.Tree

namespace Event

/-! ## Chains of adopted nodes -/

/-- The kind of a node and the events inside it that come behind the node it adopts. -/
abbrev Link := Kind × List Event

/-- The events of nodes each of which adopts the one before it. -/
def assemble : List Link → List Event
  | [] => []
  | [l] => .start l.1 none :: l.2 ++ [.finish]
  | l :: m :: ls => .start l.1 (some (l.2.length + 2)) :: l.2 ++ .finish :: assemble (m :: ls)

theorem adopt_append (es fs : List Event) (skipped distance : Nat) :
    adopt (es.length + skipped) distance (es ++ fs) =
      es ++ adopt skipped (distance - es.length) fs := by
  induction es generalizing distance with
  | nil => simp
  | cons e es ih =>
      have h : (e :: es).length + skipped = es.length + skipped + 1 := by
        simp only [List.length_cons]; omega
      rw [h, List.cons_append, adopt, ih, List.length_cons, Nat.sub_sub, Nat.add_comm 1,
        List.cons_append]

/-- A node around a chain becomes its last link. -/
theorem adopt_assemble (l : Link) (ls : List Link) (k : Kind) (es : List Event) :
    adopt 0 (assemble (l :: ls)).length (assemble (l :: ls)) ++ .start k none :: es ++ [.finish] =
      assemble (l :: ls ++ [(k, es)]) := by
  induction ls generalizing l with
  | nil => simp [assemble, adopt]
  | cons m ls ih =>
      have hd : (assemble (l :: m :: ls)).length - 1 - l.2.length - 1 =
          (assemble (m :: ls)).length := by
        simp only [assemble, List.length_append, List.length_cons]; omega
      have ha : adopt 0 (assemble (l :: m :: ls)).length (assemble (l :: m :: ls)) =
          .start l.1 (some (l.2.length + 2)) :: l.2 ++
            .finish :: adopt 0 (assemble (m :: ls)).length (assemble (m :: ls)) := by
        rw [← hd]
        generalize (assemble (l :: m :: ls)).length = n
        simp only [assemble, List.cons_append, adopt, Nat.add_one_sub_one, adopt_append]
      change _ = .start l.1 (some (l.2.length + 2)) :: l.2 ++ .finish :: assemble (m :: ls ++ [(k, es)])
      rw [ha, ← ih]
      simp only [List.cons_append, List.append_assoc]

/-! ## Events that stand for trees -/

mutual
/-- Events that stand for trees of the lexemes that are passed on the way from one rest of the
lexemes to another. -/
inductive Emission : List Lexeme → List Event → List Tree → List Lexeme → Prop where
  | nothing {ls} : Emission ls [] [] ls
  | leaf {l ls} : Emission (l :: ls) [.token l.kind] [.leaf l] ls
  | end : Emission [] [.token .eof] [] []
  | both {a b c es fs ts us} :
      Emission a es ts b → Emission b fs us c → Emission a (es ++ fs) (ts ++ us) c
  | chain {a b ls k ts} : Chain a ls k ts b → Emission a (assemble ls) [.node k ts] b

/-- The links of a chain and the outermost node that they make. -/
inductive Chain : List Lexeme → List Link → Kind → List Tree → List Lexeme → Prop where
  | node {a b k es ts} : Emission a es ts b → Chain a [(k, es)] k ts b
  | adopt {a b c ls k ts k' es us} : Chain a ls k ts b → Emission b es us c →
      Chain a (ls ++ [(k', es)]) k' (.node k ts :: us) c
end

theorem Chain.exists_cons {a ls k ts b} : Chain a ls k ts b → ∃ l ms, ls = l :: ms
  | .node _ => ⟨_, _, rfl⟩
  | .adopt h _ => by
      obtain ⟨l, ms, rfl⟩ := h.exists_cons
      exact ⟨l, _, rfl⟩

mutual
theorem Emission.leaves {a es ts b} (h : Emission a es ts b) : leavesOf ts ++ b = a := by
  match h with
  | .nothing => rfl
  | .leaf => rfl
  | .end => rfl
  | .both h h' => rw [leavesOf_append, List.append_assoc, h'.leaves, h.leaves]
  | .chain h => simpa [leavesOf, Tree.leaves] using h.leaves

theorem Chain.leaves {a ls k ts b} (h : Chain a ls k ts b) : leavesOf ts ++ b = a := by
  match h with
  | .node h => exact h.leaves
  | .adopt h h' =>
      rw [leavesOf, List.append_assoc, h'.leaves, Tree.leaves, h.leaves]
end

end Event

namespace Production

/-! ## What productions emit -/

open Event

/-- Two results of the same lexemes, of which the trees are what the events stand for. -/
structure Agrees (c : Cursor) (a : Outcome (List Event)) (b : Outcome (List Tree)) : Prop where
  problems : a.problems = b.problems
  rest : a.rest = b.rest
  single : a.single = b.single
  emission : Emission c.ahead a.made b.made b.rest.ahead
  chain : b.single = true →
    ∃ ls k ts, a.made = assemble ls ∧ b.made = [.node k ts] ∧ Chain c.ahead ls k ts b.rest.ahead

namespace Agrees

variable {c : Cursor} {p q : Cursor → Outcome (List Event)} {p' q' : Cursor → Outcome (List Tree)}

theorem idle : Agrees c (Assembly.events.idle c) (Assembly.trees.idle c) :=
  ⟨rfl, rfl, rfl, .nothing, nofun⟩

theorem leaf : Agrees c (Assembly.events.leaf c) (Assembly.trees.leaf c) := by
  obtain ⟨n, ls⟩ := c
  cases ls with
  | nil => exact ⟨rfl, rfl, rfl, .end, nofun⟩
  | cons l ls => exact ⟨rfl, rfl, rfl, .leaf, nofun⟩

theorem sequence (hp : Agrees c (p c) (p' c)) (hq : ∀ c, Agrees c (q c) (q' c)) :
    Agrees c (Assembly.events.sequence p q c) (Assembly.trees.sequence p' q' c) := by
  have hq := hq (p' c).rest
  simp only [Assembly.sequence, hp.rest]
  exact ⟨by rw [hp.problems, hq.problems], hq.rest, rfl, .both hp.emission hq.emission, nofun⟩

theorem rounds (test : Cursor → Bool) (hp : ∀ c, Agrees c (p c) (p' c)) (n : Nat) (c : Cursor) :
    Agrees c (Assembly.events.rounds test p n c) (Assembly.trees.rounds test p' n c) := by
  induction n generalizing c with
  | zero => exact idle
  | succ n ih =>
      simp only [Assembly.rounds]
      split
      · exact sequence (hp c) ih
      · exact idle

theorem marked (kind : Cursor → Kind) (hp : ∀ c, Agrees c (p c) (p' c))
    (hq : ∀ c, Agrees c (q c) (q' c)) :
    Agrees c (Assembly.events.marked p kind q c) (Assembly.trees.marked p' kind q' c) := by
  have hp := hp c
  have hq := hq (p' c).rest
  have h : Chain c.ahead [(kind (p' c).rest, (p c).made ++ (q (p' c).rest).made)] _ _ _ :=
    .node (.both hp.emission hq.emission)
  simp only [Assembly.marked, hp.rest]
  exact ⟨by rw [hp.problems, hq.problems], hq.rest, rfl, .chain h, fun _ => ⟨_, _, _, rfl, rfl, h⟩⟩

theorem grown (kind : Cursor → Option NodeKind) (hq : ∀ c, Agrees c (q c) (q' c)) (n : Nat)
    {a : Outcome (List Event)} {b : Outcome (List Tree)} (h : Agrees c a b)
    (hb : b.single = true) :
    Agrees c (Assembly.events.grown kind q n a) (Assembly.trees.grown kind q' n b) := by
  induction n generalizing a b with
  | zero => exact h
  | succ n ih =>
      simp only [Assembly.grown, h.rest]
      split
      · exact h
      · rename_i k _
        obtain ⟨ls, k₀, ts, ha, ht, hc⟩ := h.chain hb
        obtain ⟨l, ms, rfl⟩ := hc.exists_cons
        have hq := hq b.rest
        have hn : Chain _ (l :: ms ++ [((k : Kind), _)]) k _ _ := hc.adopt hq.emission
        have he : Assembly.events.adopt k a.made (q b.rest).made =
            assemble (l :: ms ++ [((k : Kind), (q b.rest).made)]) := by
          rw [ha]; exact adopt_assemble l ms k _
        have hu : Assembly.trees.adopt k b.made (q' b.rest).made =
            [.node k (.node k₀ ts :: (q' b.rest).made)] := by rw [ht]; rfl
        refine ih ⟨by rw [h.problems, hq.problems], hq.rest, rfl, ?_, fun _ => ?_⟩ rfl
        · rw [he, hu]; exact .chain hn
        · exact ⟨_, _, _, he, hu, hn⟩

end Agrees

/-- The events that a production emits stand for the trees that it reads, and it comes to the same
problems and the same rest. -/
theorem agrees (p : Production) (c : Cursor) : Agrees c (p.emit c) (p.read c) := by
  induction p generalizing c with
  | skip => exact .idle
  | take => exact .leaf
  | report problem => exact ⟨rfl, rfl, rfl, .nothing, nofun⟩
  | andThen p q ihp ihq => exact .sequence (ihp c) ihq
  | look next ih => exact ih c c
  | whileAt test p ih => exact .rounds test ih _ c
  | mark p kind q ihp ihq => exact .marked kind ihp ihq
  | grow p kind q ihp ihq =>
      have h : Agrees c (p.emit c) (p.read c) := ihp c
      have he : (grow p kind q).emit c =
          if (p.emit c).single then
            Assembly.events.grown kind q.emit (p.emit c).rest.ahead.length (p.emit c)
          else p.emit c := rfl
      rw [he, read_grow, h.single, h.rest]
      split
      · exact .grown kind ihq _ h ‹_›
      · exact h

/-- No production loses a lexeme or takes one out of order. -/
theorem read_leaves (p : Production) (c : Cursor) :
    leavesOf (p.read c).made ++ (p.read c).rest.ahead = c.ahead :=
  (p.agrees c).emission.leaves

end Production

end AlRefactor
