import AlRefactor.Proofs.Grammar.Progress

/-!
# Reading trees back

A production reads trees back if it makes just these trees of their lexemes, whatever number is at
the cursor, leaves what stands behind them and has nothing to complain about. For each way to put
productions together there is a way to put together what they read back.
-/

namespace AlRefactor

open AlRefactor.Tree

/-- Kind of the first of some lexemes, `eof` if there is none. -/
def firstKind (ls : List Lexeme) : TokenKind := (ls.head?.map (·.kind)).getD .eof

@[simp] theorem firstKind_cons (l : Lexeme) (ls : List Lexeme) : firstKind (l :: ls) = l.kind := rfl

namespace Cursor

@[simp] theorem kind_mk (n : Nat) (ls : List Lexeme) : (⟨n, ls⟩ : Cursor).kind = firstKind ls := by
  cases ls <;> rfl

end Cursor

namespace Production

/-- The production makes the trees of their lexemes when some lexemes stand behind them. -/
structure Reads (p : Production) (ts : List Tree) (rest : List Lexeme) : Prop where
  outcome (n : Nat) : (p.read ⟨n, leavesOf ts ++ rest⟩).made = ts ∧
    (p.read ⟨n, leavesOf ts ++ rest⟩).problems = []

variable {p q : Production} {ts us : List Tree} {rest : List Lexeme}

/-- What is behind the trees is left. -/
theorem Reads.rest_eq (h : p.Reads ts rest) (n : Nat) :
    ∃ m, (p.read ⟨n, leavesOf ts ++ rest⟩).rest = ⟨m, rest⟩ := by
  have hl := p.read_leaves ⟨n, leavesOf ts ++ rest⟩
  rw [(h.outcome n).1] at hl
  exact ⟨_, congrArg (Cursor.mk _) (List.append_cancel_left hl)⟩

theorem reads_skip (rest : List Lexeme) : skip.Reads [] rest := ⟨fun _ => ⟨rfl, rfl⟩⟩

theorem reads_take (l : Lexeme) (rest : List Lexeme) : take.Reads [.leaf l] rest :=
  ⟨fun _ => ⟨rfl, rfl⟩⟩

theorem Reads.append (h : p.Reads ts (leavesOf us ++ rest)) (h' : q.Reads us rest) :
    (p ++ q).Reads (ts ++ us) rest := by
  refine ⟨fun n => ?_⟩
  obtain ⟨m, hm⟩ := h.rest_eq n
  obtain ⟨hp, hp'⟩ := h.outcome n
  obtain ⟨hq, hq'⟩ := h'.outcome m
  rw [leavesOf_append, List.append_assoc, read_append, hm, hp, hp', hq, hq']
  exact ⟨rfl, rfl⟩

/-- Trees and nothing that follows them. -/
theorem Reads.append_nothing (h : p.Reads ts rest) (h' : q.Reads [] rest) :
    (p ++ q).Reads ts rest := by
  have := Reads.append (p := p) (q := q) h h'
  rwa [List.append_nil] at this

/-- One leaf and what follows it. -/
theorem Reads.take_append (l : Lexeme) (h : q.Reads us rest) :
    (take ++ q).Reads (.leaf l :: us) rest :=
  (reads_take l _).append h

theorem Reads.look {next : Cursor → Production}
    (h : ∀ n, (next ⟨n, leavesOf ts ++ rest⟩).Reads ts rest) : (look next).Reads ts rest :=
  ⟨fun n => (h n).outcome n⟩

theorem Reads.choose_true {test : Cursor → Bool}
    (ht : ∀ n, test ⟨n, leavesOf ts ++ rest⟩ = true) (h : p.Reads ts rest) :
    (choose test p q).Reads ts rest := by
  refine ⟨fun n => ?_⟩
  rw [read_choose, if_pos (ht n)]
  exact h.outcome n

theorem Reads.choose_false {test : Cursor → Bool}
    (ht : ∀ n, test ⟨n, leavesOf ts ++ rest⟩ = false) (h : q.Reads ts rest) :
    (choose test p q).Reads ts rest := by
  refine ⟨fun n => ?_⟩
  rw [read_choose, if_neg (by rw [ht n]; exact Bool.false_ne_true)]
  exact h.outcome n

/-- What is not there is skipped. -/
theorem reads_nothing {test : Cursor → Bool} (ht : ∀ n, test ⟨n, rest⟩ = false) :
    (choose test p skip).Reads [] rest :=
  .choose_false ht (reads_skip rest)

theorem Reads.mark {kind : Cursor → Kind} {k : Kind} (h : p.Reads ts (leavesOf us ++ rest))
    (hk : ∀ n, kind ⟨n, leavesOf us ++ rest⟩ = k) (h' : q.Reads us rest) :
    (mark p kind q).Reads [.node k (ts ++ us)] rest := by
  refine ⟨fun n => ?_⟩
  obtain ⟨m, hm⟩ := h.rest_eq n
  have hl : leavesOf [.node k (ts ++ us)] ++ rest = leavesOf ts ++ (leavesOf us ++ rest) := by
    simp [leavesOf, leaves]
  rw [hl, read_mark, hm, hk, (h.outcome n).1, (h.outcome n).2, (h'.outcome m).1,
    (h'.outcome m).2]
  exact ⟨rfl, rfl⟩

theorem Reads.node (k : Kind) (h : p.Reads ts rest) : (node k p).Reads [.node k ts] rest := by
  have h : (Production.mark p (fun _ => k) skip).Reads [.node k (ts ++ [])] rest :=
    h.mark (fun _ => rfl) (reads_skip rest)
  rwa [List.append_nil] at h

theorem reads_require (k : TokenKind) (c : Text) (rest : List Lexeme) :
    (require k).Reads [.leaf ⟨k, c⟩] rest :=
  Reads.choose_true (fun _ => beq_self_eq_true k) (reads_take _ rest)

/-- Trees and the leaf that has to follow them. -/
theorem Reads.append_require {k : TokenKind} {c : Text} (h : p.Reads ts (⟨k, c⟩ :: rest)) :
    (p ++ require k).Reads (ts ++ [.leaf ⟨k, c⟩]) rest :=
  Reads.append h (reads_require k c rest)

theorem Reads.requireThen (k : TokenKind) (c : Text) (h : q.Reads us rest) :
    (requireThen k q).Reads (.leaf ⟨k, c⟩ :: us) rest :=
  Reads.choose_true (fun _ => beq_self_eq_true k) (h.take_append _)

/-! ## Repetitions -/

/-- Enough rounds of the production make the trees and find nothing wrong. -/
def Repeats (test : Cursor → Bool) (p : Production) (ts : List Tree) (rest : List Lexeme) : Prop :=
  ∀ k n, (leavesOf ts).length ≤ k →
    (Assembly.trees.rounds test p.read k ⟨n, leavesOf ts ++ rest⟩).made = ts ∧
      (Assembly.trees.rounds test p.read k ⟨n, leavesOf ts ++ rest⟩).problems = []

variable {test : Cursor → Bool}

theorem Repeats.nil (h : ∀ n, test ⟨n, rest⟩ = false) : Repeats test p [] rest := by
  intro k n _
  have h : test ⟨n, leavesOf [] ++ rest⟩ = false := h n
  cases k with
  | zero => exact ⟨rfl, rfl⟩
  | succ k => simp [Assembly.rounds, h, Assembly.idle, Assembly.trees]

theorem Repeats.cons (ht : ∀ n, test ⟨n, leavesOf ts ++ (leavesOf us ++ rest)⟩ = true)
    (hp : p.Reads ts (leavesOf us ++ rest)) (hts : leavesOf ts ≠ []) (h : Repeats test p us rest) :
    Repeats test p (ts ++ us) rest := by
  intro k n hk
  have hpos := List.length_pos_iff.mpr hts
  rw [leavesOf_append, List.length_append] at hk
  rw [leavesOf_append, List.append_assoc]
  cases k with
  | zero => omega
  | succ k =>
      obtain ⟨m, hm⟩ := hp.rest_eq n
      obtain ⟨h₁, h₁'⟩ := hp.outcome n
      obtain ⟨h₂, h₂'⟩ := h k m (by omega)
      simp only [Assembly.rounds, ht n, ↓reduceIte, Assembly.sequence, hm, h₁, h₁', h₂, h₂']
      exact ⟨rfl, rfl⟩

theorem Repeats.reads (h : Repeats test p ts rest) : (whileAt test p).Reads ts rest :=
  ⟨fun n => h _ n (by simp)⟩

/-- One round for each of some trees, where something holds of what is behind each of them. -/
theorem Repeats.each (good : List Lexeme → Prop) (hg : good rest)
    (hr : ∀ n, test ⟨n, rest⟩ = false)
    (h : ∀ t ∈ ts, ∀ more, good more → good (t.leaves ++ more) ∧ t.leaves ≠ [] ∧
      (∀ n, test ⟨n, t.leaves ++ more⟩ = true) ∧ p.Reads [t] more) :
    Repeats test p ts rest := by
  suffices good (leavesOf ts ++ rest) ∧ Repeats test p ts rest from this.2
  induction ts with
  | nil => exact ⟨hg, .nil hr⟩
  | cons t ts ih =>
      obtain ⟨hg, hts⟩ := ih fun u hu => h u (List.mem_cons_of_mem _ hu)
      obtain ⟨hg, hn, ht, hp⟩ := h t (List.mem_cons_self ..) _ hg
      have hl : leavesOf [t] = t.leaves := by simp [leavesOf]
      rw [leavesOf, List.append_assoc]
      refine ⟨hg, ?_⟩
      show Repeats test p ([t] ++ ts) rest
      exact .cons (by rwa [hl]) hp (by rwa [hl]) hts

/-! ## Nodes around nodes -/

/-- The production makes a single node of its lexemes when some lexemes stand behind it. -/
def ReadsNode (p : Production) (t : Tree) (rest : List Lexeme) : Prop :=
  ∀ n, ∃ m, p.read ⟨n, t.leaves ++ rest⟩ = ⟨[t], true, [], ⟨m, rest⟩⟩

/-- Opening one node after the other around the node that a production makes leads to a tree. -/
def Grows (p : Production) (kind : Cursor → Option NodeKind) (q : Production) (t : Tree)
    (rest : List Lexeme) : Prop :=
  ∀ n, (p.read ⟨n, t.leaves ++ rest⟩).single = true ∧
    ∀ k, (p.read ⟨n, t.leaves ++ rest⟩).rest.ahead.length ≤ k → ∃ k' m, rest.length ≤ k' ∧
      Assembly.trees.grown kind q.read k (p.read ⟨n, t.leaves ++ rest⟩) =
        Assembly.trees.grown kind q.read k' ⟨[t], true, [], ⟨m, rest⟩⟩

variable {kind : Cursor → Option NodeKind} {t : Tree}

theorem ReadsNode.reads (h : p.ReadsNode t rest) : p.Reads [t] rest := by
  refine ⟨fun n => ?_⟩
  obtain ⟨m, hm⟩ := h n
  rw [leavesOf, leavesOf, List.append_nil, hm]
  exact ⟨rfl, rfl⟩

theorem Reads.readsNode {k : Kind} (h : q.Reads ts rest)
    (he : ∀ n, p.read ⟨n, leavesOf ts ++ rest⟩ = (Production.node k q).read ⟨n, leavesOf ts ++ rest⟩) :
    p.ReadsNode (.node k ts) rest := by
  intro n
  obtain ⟨m, hm⟩ := h.rest_eq n
  refine ⟨m, ?_⟩
  rw [leaves, he, read_node, (h.outcome n).1, (h.outcome n).2, hm]

/-- A single node is what growing begins with. -/
theorem ReadsNode.grows (h : p.ReadsNode t rest) : Grows p kind q t rest := by
  intro n
  obtain ⟨m, hm⟩ := h n
  rw [hm]
  exact ⟨rfl, fun k hk => ⟨k, m, hk, rfl⟩⟩

theorem Grows.step (h : Grows p kind q t (leavesOf us ++ rest)) {k : NodeKind}
    (hk : ∀ n, kind ⟨n, leavesOf us ++ rest⟩ = some k) (hq : q.Reads us rest)
    (hu : leavesOf us ≠ []) : Grows p kind q (.node k (t :: us)) rest := by
  intro n
  have hl : (Tree.node k (t :: us)).leaves ++ rest = t.leaves ++ (leavesOf us ++ rest) := by
    simp [leavesOf, leaves]
  rw [hl]
  refine ⟨(h n).1, fun i hi => ?_⟩
  obtain ⟨j, m, hj, he⟩ := (h n).2 i hi
  have hpos := List.length_pos_iff.mpr hu
  rw [List.length_append] at hj
  cases j with
  | zero => omega
  | succ j =>
      obtain ⟨m', hm⟩ := hq.rest_eq m
      refine ⟨j, m', by omega, he.trans ?_⟩
      simp only [Assembly.grown, hk, hm, (hq.outcome m).1, (hq.outcome m).2]
      rfl

/-- Growing ends where nothing opens another node. -/
theorem Grows.readsNode (h : Grows p kind q t rest) (hk : ∀ n, kind ⟨n, rest⟩ = none) :
    (grow p kind q).ReadsNode t rest := by
  intro n
  obtain ⟨hs, h⟩ := h n
  obtain ⟨k, m, -, he⟩ := h _ (Nat.le_refl _)
  refine ⟨m, ?_⟩
  rw [read_grow, if_pos hs, he]
  cases k <;> simp [Assembly.grown, hk]

end Production

end AlRefactor
