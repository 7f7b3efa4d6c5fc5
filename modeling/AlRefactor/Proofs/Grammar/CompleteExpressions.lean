import AlRefactor.Proofs.Grammar.Bodies
import AlRefactor.Proofs.Grammar.Reads

/-!
# Every written-out body is read back

The productions make each tree of an expression or a statement of its own lexemes.
-/

namespace AlRefactor

open AlRefactor.Tree

namespace TokenKind

/-- The token neither follows an operand nor is an operator of at least the power. -/
def Ends (p : Nat) (k : TokenKind) : Prop :=
  k ∉ [dot, colonColon, lParen, lBracket] ∧ ∀ q ∈ k.powers?, q.1 < p

instance (p : Nat) (k : TokenKind) : Decidable (k.Ends p) := by unfold Ends; infer_instance

end TokenKind

namespace Grammar

open Production

theorem follower_eq_none {ls : List Lexeme}
    (h : firstKind ls ∉ [TokenKind.dot, .colonColon, .lParen, .lBracket]) (n : Nat) :
    follower ⟨n, ls⟩ = none := by
  simp only [follower, Cursor.kind_mk]
  split <;> simp_all

theorem operator_eq_none {ls : List Lexeme} {p : Nat} (h : (firstKind ls).Ends p) (n : Nat) :
    operator true p ⟨n, ls⟩ = none := by
  have hq := h.2
  simp only [operator, Cursor.isAt, Cursor.kind_mk]
  cases ho : (firstKind ls).powers? with
  | none => simp
  | some q => simp [ho] at hq; simp [hq]

end Grammar

namespace Tree

theorem Binds.zero (t : Tree) : t.Binds 0 := fun _ _ => Nat.zero_le _

theorem isName_start {k : TokenKind} (h : k.isName) :
    k.canStartExpression ∧ k.unaryPower? = none := by
  revert h; cases k <;> decide

theorem isLiteral_start {k : TokenKind} (h : k.isLiteral) :
    k.canStartExpression ∧ k.unaryPower? = none := by
  revert h; cases k <;> decide

theorem unary_start {k : TokenKind} (h : k.unaryPower?.isSome) : k.canStartExpression := by
  revert h; cases k <;> decide

theorem ne_of_start {k k' : TokenKind} (h : k.canStartExpression)
    (h' : k'.canStartExpression = false) : k ≠ k' := by
  rintro rfl; rw [h] at h'; cases h'

theorem Receives.kind {k : NodeKind} {ts : List Tree} (h : Receives (.node k ts)) :
    k ∈ Pattern.receivers := by
  obtain ⟨_, hk, he⟩ := h
  cases he; exact hk

/-- No expression is without a lexeme, and no primary expression starts with an operator. -/
theorem Expression.head {t : Tree} (h : Expression t) : ∃ l ls, t.leaves = l :: ls ∧
    l.kind.canStartExpression ∧ (t.Receives → l.kind.unaryPower? = none) := by
  induction h with
  | @name l h => exact ⟨l, [], rfl, (isName_start h).1, fun _ => (isName_start h).2⟩
  | @literal l h => exact ⟨l, [], rfl, (isLiteral_start h).1, fun _ => (isLiteral_start h).2⟩
  | unary ho => exact ⟨_, _, rfl, unary_start ho, fun hr => absurd hr.kind (by decide)⟩
  | @binary o _ _ _ _ _ _ _ _ _ ih =>
      obtain ⟨l, ls, hl, hs, -⟩ := ih
      refine ⟨l, _, by rw [leaves, leavesOf, hl]; rfl, hs, fun hr => absurd hr.kind ?_⟩
      rw [operation]; split <;> decide
  | parenthesized | set => exact ⟨_, _, rfl, rfl, fun _ => rfl⟩
  | member _ hr _ ih | option _ hr _ ih | call _ hr _ ih | index _ hr _ ih =>
      obtain ⟨l, ls, hl, hs, hu⟩ := ih
      exact ⟨l, _, by rw [leaves, leavesOf, hl]; rfl, hs, fun _ => hu hr⟩

end Tree

namespace Grammar

open Production AlRefactor.Tree

/-! ## What brackets hold -/

/-- The production reads expressions that a comma or a closing bracket follows. -/
def ReadsExpressions (p : Production) (es : List Tree) : Prop :=
  ∀ e ∈ es, ∀ rest, (firstKind rest).Ends 0 → p.Reads [e] rest

theorem ends_afterCommas (es : List Tree) {rest : List Lexeme} (h : (firstKind rest).Ends 0) :
    (firstKind (leavesOf (afterCommas es) ++ rest)).Ends 0 := by
  cases es with
  | nil => exact h
  | cons e es => show TokenKind.Ends 0 .comma; decide

theorem reads_afterCommas {p : Production} {es : List Tree} {rest : List Lexeme}
    (hp : ReadsExpressions p es) (h : (firstKind rest).Ends 0) (hc : firstKind rest ≠ .comma) :
    (whileAt (·.isAt .comma) (take ++ p)).Reads (afterCommas es) rest := by
  refine Repeats.reads ?_
  induction es with
  | nil => exact .nil fun n => by simpa [Cursor.isAt] using hc
  | cons e es ih =>
      have he := hp e (List.mem_cons_self ..) _ (ends_afterCommas es h)
      have hes := ih fun e he => hp e (List.mem_cons_of_mem _ he)
      show Repeats _ _ ([comma, e] ++ afterCommas es) rest
      exact .cons (fun _ => rfl) (he.take_append _) (List.cons_ne_nil _ _) hes

theorem reads_commaSeparated {p : Production} {e : Tree} {es : List Tree} {rest : List Lexeme}
    (hp : ReadsExpressions p (e :: es)) (h : (firstKind rest).Ends 0)
    (hc : firstKind rest ≠ .comma) :
    (p ++ whileAt (·.isAt .comma) (take ++ p)).Reads (commaSeparated (e :: es)) rest :=
  (hp e (List.mem_cons_self ..) _ (ends_afterCommas es h)).append
    (reads_afterCommas (fun e he => hp e (List.mem_cons_of_mem _ he)) h hc)

theorem reads_bracketed {inner : Inner} {es : List Tree} {k : TokenKind}
    (hp : ReadsExpressions (inner true 0) es) (hs : ∀ e ∈ es, Expression e)
    (hc : k ∈ [TokenKind.rParen, .rBracket]) (o : Lexeme) (c : Text) (rest : List Lexeme) :
    (bracketed inner k).Reads (.leaf o :: commaSeparated es ++ [.leaf ⟨k, c⟩]) rest := by
  obtain ⟨he, hcomma, hstart⟩ :
      k.Ends 0 ∧ k ≠ .comma ∧ k.canStartExpression = false := by
    revert hc; cases k <;> decide
  have hb : (choose (·.isAt k) skip (expressions inner)).Reads (commaSeparated es)
      (⟨k, c⟩ :: rest) := by
    cases es with
    | nil => exact Reads.choose_true (fun _ => beq_self_eq_true k) (reads_skip _)
    | cons e es =>
        obtain ⟨l, ls, hl, hstart', -⟩ := (hs e (List.mem_cons_self ..)).head
        refine Reads.choose_false (fun _ => ?_) (reads_commaSeparated hp he hcomma)
        simp only [commaSeparated, leavesOf, hl, List.cons_append, Cursor.isAt, Cursor.kind_mk,
          firstKind_cons]
        exact beq_false_of_ne (ne_of_start hstart' hstart)
  exact (hb.take_append o).append_require

/-! ## Expressions -/

/-- What expressions nested at most `n` deep make of the lexemes of a tree: an operand that operators
grow into the tree, and for a primary expression one that members and arguments grow into it. -/
structure Complete (t : Tree) : Prop where
  operand {n p : Nat} {rest : List Lexeme} (hn : t.leaves.length ≤ n) (hp : t.Binds p)
    (hf : firstKind rest ∉ [TokenKind.dot, .colonColon, .lParen, .lBracket])
    (ho : ∀ q ∈ t.power?, ∀ lr ∈ (firstKind rest).powers?, lr.1 ≤ q) :
    Grows (operand (expressionUpTo n) true) (operator true p) (rightOperand (expressionUpTo n) true)
      t rest
  primary {n : Nat} {rest : List Lexeme} (hn : t.leaves.length ≤ n) (hr : t.Receives) :
    Grows (primary (expressionUpTo n)) follower (suffix (expressionUpTo n)) t rest

/-- Where an expression ends, it is read back as a whole. -/
theorem Complete.readsNode {t : Tree} (h : Complete t) {n p : Nat} {rest : List Lexeme}
    (hn : t.leaves.length < n) (hp : t.Binds p) (he : (firstKind rest).Ends p) :
    (expressionUpTo n true p).ReadsNode t rest := by
  cases n with
  | zero => omega
  | succ n =>
      have hg := h.operand (Nat.le_of_lt_succ hn) hp he.1
        fun q hq lr hlr => Nat.le_of_lt (Nat.lt_of_lt_of_le (he.2 lr hlr) (hp q hq))
      exact hg.readsNode (operator_eq_none he)

theorem Complete.reads {t : Tree} (h : Complete t) {n : Nat} {l : Lexeme} (he : l.kind.Ends 0)
    (hn : t.leaves.length < n) (ls : List Lexeme) : (expressionUpTo n true 0).Reads [t] (l :: ls) := by
  have hr : (expressionUpTo n true 0).ReadsNode t (l :: ls) := h.readsNode hn (.zero t) he
  exact hr.reads

/-- A primary expression is an operand when nothing follows it. -/
theorem operand_of_primary {inner : Inner} {t : Tree} {rest : List Lexeme} (h : Expression t)
    (hr : t.Receives) (hp : Grows (primary inner) follower (suffix inner) t rest)
    (hf : firstKind rest ∉ [TokenKind.dot, .colonColon, .lParen, .lBracket]) (allowIn : Bool) :
    (operand inner allowIn).ReadsNode t rest := by
  intro m
  obtain ⟨l, ls, hl, -, hu⟩ := h.head
  have hk : (⟨m, t.leaves ++ rest⟩ : Cursor).kind.unaryPower? = none := by rw [hl]; exact hu hr
  obtain ⟨m', hm⟩ := hp.readsNode (follower_eq_none hf) m
  refine ⟨m', ?_⟩
  rw [operand, read_look, hk]
  exact hm

theorem complete_of_primary {t : Tree} (h : Expression t) (hr : t.Receives)
    (hp : ∀ {n : Nat} {rest : List Lexeme}, t.leaves.length ≤ n →
      Grows (primary (expressionUpTo n)) follower (suffix (expressionUpTo n)) t rest) :
    Complete t where
  operand hn _ hf _ := (operand_of_primary h hr (hp hn) hf true).grows
  primary hn _ := hp hn

theorem reads_selector {d l : Lexeme} {missing : Problem} (h : l.kind.isName || l.kind.isKeyword)
    (rest : List Lexeme) : (selector missing).Reads [.leaf d, .identifier l] rest :=
  .take_append d (.choose_true (fun _ => h) ((reads_take l rest).node _))

theorem length_leaves_le {ts : List Tree} {t : Tree} (h : t ∈ ts) :
    t.leaves.length ≤ (leavesOf ts).length := by
  induction ts with
  | nil => cases h
  | cons u ts ih =>
      rw [leavesOf, List.length_append]
      rcases List.mem_cons.mp h with rfl | h
      · omega
      · have := ih h; omega

theorem length_leaves_lt_ahead (t : Tree) (rest : List Lexeme) :
    t.leaves.length < (leavesOf [t] ++ rest).length + 1 := by
  have ht : t.leaves.length ≤ (leavesOf [t]).length := length_leaves_le (List.mem_cons_self ..)
  rw [List.length_append]
  omega

theorem mem_commaSeparated {es : List Tree} {e : Tree} (h : e ∈ es) : e ∈ commaSeparated es := by
  cases es with
  | nil => cases h
  | cons x es =>
      rcases List.mem_cons.mp h with rfl | h
      · exact List.mem_cons_self ..
      · exact List.mem_cons_of_mem _ (List.mem_flatMap.mpr ⟨e, h, by simp⟩)

theorem right_power {k : TokenKind} {l r : Nat} (h : k.powers? = some (l, r)) :
    r = l + 1 ∧ l < 9 ∧ k ∉ [TokenKind.dot, .colonColon, .lParen, .lBracket] := by
  revert h; cases k <;> simp +contextual [TokenKind.powers?, eq_comm]

theorem power?_operation (o : Lexeme) (x y : Tree) :
    power? (.node (operation o.kind) [x, .leaf o, y]) = o.kind.powers?.map (·.1) := by
  rw [operation]; split <;> rfl

theorem complete_binary {o : Lexeme} {x y : Tree} {l r : Nat} (ho : o.kind.powers? = some (l, r))
    (hx : Complete x) (hl : x.Binds l) (hy : Complete y) (hr : y.Binds (l + 1)) :
    Complete (.node (operation o.kind) [x, .leaf o, y]) where
  operand {n p rest} hn hp hf hq := by
    obtain ⟨rfl, -, hof⟩ := right_power ho
    have hlen : x.leaves.length + (1 + y.leaves.length) ≤ n := by
      simpa [leaves, leavesOf, Nat.add_comm] using hn
    have hpl : p ≤ l := hp l (by rw [power?_operation, ho]; rfl)
    have hgx : Grows (operand (expressionUpTo n) true) (operator true p)
        (rightOperand (expressionUpTo n) true) x (leavesOf [.leaf o, y] ++ rest) :=
      hx.operand (by omega) (fun q hq => Nat.le_trans hpl (hl q hq)) hof fun q hq lr hlr => by
        rw [show (firstKind (leavesOf [.leaf o, y] ++ rest)).powers? = _ from ho] at hlr
        cases hlr
        exact hl q hq
    refine hgx.step (fun m => ?_) (.look fun m => ?_) nofun
    · have hk : (⟨m, leavesOf [.leaf o, y] ++ rest⟩ : Cursor).kind = o.kind := rfl
      simp only [operator, Cursor.isAt, hk, ho, Bool.not_true, Bool.and_false, Bool.false_eq_true,
        if_false, Nat.not_lt.mpr hpl, operation, beq_iff_eq]
    · have hk : (⟨m, leavesOf [.leaf o, y] ++ rest⟩ : Cursor).kind = o.kind := rfl
      rw [hk, ho]
      refine ((hy.readsNode (by omega) hr ⟨hf, fun lr hlr => ?_⟩).reads).take_append o
      exact Nat.lt_succ_of_le (hq l (by rw [power?_operation, ho]; rfl) lr hlr)
  primary hn hr := absurd hr.kind (by rw [operation]; split <;> decide)

theorem complete_unary {o : Lexeme} {x : Tree} (ho : o.kind.unaryPower?.isSome) (hx : Complete x)
    (hp : x.power? = none) : Complete (.node NodeKind.unaryExpression [.leaf o, x]) where
  operand {n p rest} hn _ hf _ := by
    obtain ⟨r, hr⟩ := Option.isSome_iff_exists.mp ho
    have hlen : 1 + x.leaves.length ≤ n := by
      simpa [leaves, leavesOf, Nat.add_comm] using hn
    have he : (firstKind rest).Ends 9 := ⟨hf, fun lr h => (right_power h).2.1⟩
    have hb : x.Binds 9 := fun q hq => by rw [hp] at hq; cases hq
    have hx : (expressionUpTo n true 9).Reads [x] rest := (hx.readsNode (by omega) hb he).reads
    refine ReadsNode.grows (Reads.readsNode (hx.take_append o) fun m => ?_)
    have hk : (⟨m, leavesOf [.leaf o, x] ++ rest⟩ : Cursor).kind = o.kind := rfl
    have h9 : o.kind.unaryPower? = some 9 := by revert ho; cases o.kind <;> decide
    rw [operand, read_look, hk, h9]
  primary hn hr := absurd hr.kind (by decide)

theorem readsExpressions {es : List Tree} {n : Nat} (hs : ∀ e ∈ es, Complete e)
    (hn : (leavesOf (commaSeparated es)).length < n) :
    ReadsExpressions (expressionUpTo n true 0) es := by
  intro e he _ hr
  have hle : e.leaves.length ≤ (leavesOf (commaSeparated es)).length :=
    length_leaves_le (mem_commaSeparated he)
  exact ((hs e he).readsNode (Nat.lt_of_le_of_lt hle hn) (.zero e) hr).reads

theorem reads_squared {k : NodeKind} {es : List Tree} {n : Nat} (he : ∀ e ∈ es, Expression e)
    (hs : ∀ e ∈ es, Complete e) (hn : (squared k es).leaves.length ≤ n) (rest : List Lexeme) :
    (bracketed (expressionUpTo n) .rBracket).Reads
      (.leaf ⟨.lBracket, ['[']⟩ :: commaSeparated es ++ [.leaf ⟨.rBracket, [']']⟩]) rest := by
  have hlen : (leavesOf (commaSeparated es)).length < n := by
    simp [squared, leaves, leavesOf] at hn; omega
  exact reads_bracketed (readsExpressions hs hlen) he (by decide) _ _ rest

theorem reads_arguments {es : List Tree} {n : Nat} (he : ∀ e ∈ es, Expression e)
    (hs : ∀ e ∈ es, Complete e) (hn : (arguments es).leaves.length ≤ n) (rest : List Lexeme) :
    (argumentList (expressionUpTo n) .rParen).Reads [arguments es] rest := by
  have hlen : (leavesOf (commaSeparated es)).length < n := by
    simp [arguments, leaves, leavesOf] at hn; omega
  have h := reads_bracketed (readsExpressions hs hlen) he (k := .rParen) (by decide)
    ⟨.lParen, ['(']⟩ [')'] rest
  exact h.node _

end Grammar

open Production Grammar in
/-- The productions make every expression of its own lexemes. -/
theorem Tree.Expression.complete {t : Tree} (h : Expression t) : Complete t := by
  -- Primary expressions are read and then grown by their suffixes; operations are read by their powers.
  have h₀ := h
  induction h with
  | @name l h =>
      refine complete_of_primary h₀ ⟨_, by decide, rfl⟩ fun {_ rest} _ => ?_
      refine (Reads.readsNode (reads_take l _) fun n => ?_).grows
      rw [primary, read_look]
      have hk : (⟨n, leavesOf [.leaf l] ++ rest⟩ : Cursor).kind = l.kind := rfl
      have hl : l.kind.isLiteral = false := by revert h; cases l.kind <;> decide
      simp only [hk, hl, h, if_true]
      rfl
  | @literal l h =>
      refine complete_of_primary h₀ ⟨_, by decide, rfl⟩ fun _ => ?_
      refine (Reads.readsNode (reads_take l _) fun n => ?_).grows
      rw [primary, read_look]
      simp only [leavesOf, leaves, List.cons_append, Cursor.kind_mk, firstKind_cons, h, if_true]
  | unary ho h hp ih => exact complete_unary ho (ih h) hp
  | binary ho h hp h' hp' ih ih' => exact complete_binary ho (ih h) hp (ih' h') hp'
  | @parenthesized x h ih =>
      refine complete_of_primary h₀ ⟨_, by decide, rfl⟩ fun {n rest} hn => ?_
      have hlen : x.leaves.length < n := by simp [leaves, leavesOf] at hn; omega
      have hx := (ih h).reads (l := ⟨.rParen, [')']⟩) (by decide) hlen rest
      have hb : (take ++ expressionUpTo n true 0 ++ require .rParen).Reads
          [.leaf ⟨.lParen, ['(']⟩, x, .leaf ⟨.rParen, [')']⟩] rest := (hx.take_append _).append_require
      exact (hb.readsNode fun _ => rfl).grows
  | @set es h ih =>
      refine complete_of_primary h₀ ⟨_, by decide, rfl⟩ fun {n rest} hn => ?_
      have hb := reads_squared h (fun e he => ih e he (h e he)) hn rest
      exact (Reads.readsNode hb fun _ => rfl).grows
  | @member x l h hr hl ih =>
      refine complete_of_primary h₀ ⟨_, by decide, rfl⟩ fun {n rest} hn => ?_
      have hlen : x.leaves.length ≤ n := by simp [leaves, leavesOf] at hn; omega
      exact ((ih h).primary hlen hr).step (fun _ => rfl) (.look fun _ => reads_selector hl rest) nofun
  | @option x l h hr hl ih =>
      refine complete_of_primary h₀ ⟨_, by decide, rfl⟩ fun {n rest} hn => ?_
      have hlen : x.leaves.length ≤ n := by simp [leaves, leavesOf] at hn; omega
      exact ((ih h).primary hlen hr).step (fun _ => rfl) (.look fun _ => reads_selector hl rest) nofun
  | @call x es h hr hs ih ih' =>
      refine complete_of_primary h₀ ⟨_, by decide, rfl⟩ fun {n rest} hn => ?_
      rw [leaves, leavesOf, leavesOf, leavesOf, List.append_nil, List.length_append] at hn
      have hlen : (arguments es).leaves.length ≤ n := by omega
      have ha := reads_arguments hs (fun e he => ih' e he (hs e he)) hlen rest
      exact ((ih h).primary (by omega) hr).step (fun _ => rfl) (.look fun _ => ha) nofun
  | @index x es h hr hs ih ih' =>
      refine complete_of_primary h₀ ⟨_, by decide, rfl⟩ fun {n rest} hn => ?_
      rw [leaves, leavesOf, leavesOf, leavesOf, List.append_nil, List.length_append] at hn
      have hlen : (squared .argumentList es).leaves.length ≤ n := by omega
      have hb := reads_squared hs (fun e he => ih' e he (hs e he)) hlen rest
      exact ((ih h).primary (by omega) hr).step (fun _ => rfl) (.look fun _ => hb.node _) nofun

namespace Grammar

open Production

theorem reads_expression {t : Tree} (h : t.Expression) {rest : List Lexeme}
    (he : (firstKind rest).Ends 0) : expression.Reads [t] rest :=
  .look fun _ => (h.complete.readsNode (length_leaves_lt_ahead t rest) (.zero t) he).reads

theorem reads_expressionWithoutIn {l : Lexeme} (h : l.kind.isName) (i : Text)
    (rest : List Lexeme) : expressionWithoutIn.Reads [.identifier l] (⟨.kwIn, i⟩ :: rest) := by
  have he : (Tree.identifier l).Expression := .name h
  have hr : (Tree.identifier l).Receives := ⟨_, by decide, rfl⟩
  have hn : ∀ n, (operand (expressionUpTo (n + 1)) false).ReadsNode (.identifier l)
      (⟨.kwIn, i⟩ :: rest) :=
    fun n => operand_of_primary he hr (he.complete.primary (Nat.le_add_left _ _) hr)
      (by decide : TokenKind.kwIn ∉ _) false
  have hg : ∀ n, (expressionStep (expressionUpTo (n + 1)) false 0).ReadsNode (.identifier l)
      (⟨.kwIn, i⟩ :: rest) := fun n => (hn n).grows.readsNode fun _ => rfl
  exact .look fun n => .look fun _ => (hg _).reads

end Grammar

end AlRefactor
