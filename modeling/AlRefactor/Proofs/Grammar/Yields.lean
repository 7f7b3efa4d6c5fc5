import AlRefactor.Proofs.Grammar.Nodes
import AlRefactor.Proofs.Grammar.Rules

/-!
# What productions make when they note no problem

For each way to put productions together, the pattern of what it makes in terms of the patterns of
its parts. A production that notes a problem makes anything.
-/

namespace AlRefactor

open AlRefactor.Tree

theorem TokenKind.mem_all (k : TokenKind) : k ∈ TokenKind.all := by cases k <;> decide

namespace Pattern

theorem mem_oneOf {ss : List Symbol} {w : List Symbol} :
    w ∈ (oneOf ss).matches' ↔ ∃ s ∈ ss, w = [s] := by
  induction ss with
  | nil => exact ⟨fun h => h.elim, fun ⟨_, h, _⟩ => nomatch h⟩
  | cons s ss ih =>
      have h : w ∈ (oneOf (s :: ss)).matches' ↔ w = [s] ∨ w ∈ (oneOf ss).matches' := Iff.rfl
      rw [h, ih]
      simp

theorem mem_token {k : TokenKind} {w : List Symbol} :
    w ∈ (token k).matches' ↔ w = [.token k] := Iff.rfl

theorem mem_node {k : NodeKind} {w : List Symbol} : w ∈ (node k).matches' ↔ w = [.node k] := Iff.rfl

theorem mem_mul {r s : Pattern} {w : List Symbol} :
    w ∈ (r * s).matches' ↔ ∃ u ∈ r.matches', ∃ v ∈ s.matches', u ++ v = w := Iff.rfl

theorem mem_one_mul {r : Pattern} {w : List Symbol} :
    w ∈ (1 * r : Pattern).matches' ↔ w ∈ r.matches' := by
  rw [RegularExpression.matches'_mul, RegularExpression.matches'_epsilon, one_mul]

theorem mem_mul_one {r : Pattern} {w : List Symbol} :
    w ∈ (r * 1 : Pattern).matches' ↔ w ∈ r.matches' := by
  rw [RegularExpression.matches'_mul, RegularExpression.matches'_epsilon, mul_one]

theorem mem_mul_assoc {r s t : Pattern} {w : List Symbol} :
    w ∈ (r * s * t).matches' ↔ w ∈ (r * (s * t)).matches' := by
  simp only [RegularExpression.matches'_mul, mul_assoc]

theorem append_mem {r s : Pattern} {u v : List Symbol} (hu : u ∈ r.matches')
    (hv : v ∈ s.matches') : u ++ v ∈ (r * s).matches' := ⟨u, hu, v, hv, rfl⟩

theorem nil_mem_star {r : Pattern} : [] ∈ r.star.matches' := Language.nil_mem_kstar _

theorem append_mem_star {r : Pattern} {u v : List Symbol} (hu : u ∈ r.matches')
    (hv : v ∈ r.star.matches') : u ++ v ∈ r.star.matches' := by
  obtain ⟨ws, rfl, hw⟩ := Language.mem_kstar.mp hv
  exact Language.mem_kstar.mpr ⟨u :: ws, rfl, List.forall_mem_cons.mpr ⟨hu, hw⟩⟩

theorem append_star {r : Pattern} {u v : List Symbol} (hu : u ∈ r.star.matches')
    (hv : v ∈ r.star.matches') : u ++ v ∈ r.star.matches' := by
  have h : u ++ v ∈ KStar.kstar r.matches' * KStar.kstar r.matches' := ⟨u, hu, v, hv, rfl⟩
  rwa [kstar_mul_kstar] at h

theorem mem_tokens {ks : List TokenKind} {w : List Symbol} :
    w ∈ (tokens ks).matches' ↔ ∃ k ∈ ks, w = [.token k] := by
  simp [tokens, mem_oneOf]

theorem mem_nodes {ks : List NodeKind} {w : List Symbol} :
    w ∈ (nodes ks).matches' ↔ ∃ k ∈ ks, w = [.node k] := by
  simp [nodes, mem_oneOf]

/-- Children that match the pattern are those of a node of a kind, which matches another one. -/
def Forms (r : Pattern) (k : NodeKind) (s : Pattern) : Prop :=
  ∀ w ∈ r.matches', w ∈ k.production.matches' ∧
    [Symbol.ofNode k (w.map Symbol.kind)] ∈ s.matches'

end Pattern

/-- The children of a node are what the rules say. In a tree that follows the rules no composite
node has the kind of a token. -/
def Rule : Kind → List Tree → Prop
  | .token _, _ => False
  | .node k, ts => ts.map Tree.symbol ∈ k.production.matches'

/-- In a tree that follows the rules what has the kind of a token is one. -/
theorem Tree.exists_leaf {t : Tree} {k : TokenKind} (ht : Everywhere Rule t) (hk : t.kind = k) :
    ∃ l, t = .leaf l ∧ l.kind = k := by
  cases t with
  | leaf l => exact ⟨l, rfl, Kind.token.inj hk⟩
  | node i ts =>
      obtain rfl : i = k := hk
      exact ht.1.elim

/-- Trees whose symbols match the pattern follow the rule of the node above them. -/
theorem Pattern.Forms.node {r s : Pattern} {k : NodeKind} (h : r.Forms k s) {ts : List Tree}
    (hr : EverywhereAll Rule ts) (hm : ts.map Tree.symbol ∈ r.matches') :
    EverywhereAll Rule [.node k ts] ∧ [Tree.node k ts].map Tree.symbol ∈ s.matches' := by
  obtain ⟨hw, hs⟩ := h _ hm
  refine ⟨⟨⟨hw, hr⟩, trivial⟩, ?_⟩
  have hk : (ts.map Tree.symbol).map Symbol.kind = ts.map Tree.kind := by
    rw [List.map_map]
    exact List.map_congr_left fun t _ => t.kind_symbol
  rwa [hk] at hs

namespace Production

/-- If no problem was noted, trees match a pattern, and the nodes of them follow the rules. -/
def Clean (problems : List (Problem × Nat)) (ts : List Tree) (r : Pattern) : Prop :=
  problems = [] → EverywhereAll Rule ts ∧ ts.map Tree.symbol ∈ r.matches'

namespace Clean

variable {ps qs : List (Problem × Nat)} {ts us : List Tree} {r s : Pattern}

theorem mono (h : Clean ps ts r) (hs : ∀ w ∈ r.matches', w ∈ s.matches') : Clean ps ts s :=
  fun hp => ⟨(h hp).1, hs _ (h hp).2⟩

theorem append (hp : Clean ps ts r) (hq : Clean qs us s) : Clean (ps ++ qs) (ts ++ us) (r * s) := by
  intro h
  obtain ⟨h, h'⟩ := List.append_eq_nil_iff.mp h
  refine ⟨everywhereAll_append.mpr ⟨(hp h).1, (hq h').1⟩, ?_⟩
  rw [List.map_append]
  exact Pattern.append_mem (hp h).2 (hq h').2

theorem node {k : NodeKind} (hp : Clean ps ts r) (h : r.Forms k s) : Clean ps [.node k ts] s :=
  fun hn => h.node (hp hn).1 (hp hn).2

end Clean

/-- What a production makes at a cursor matches a pattern, unless it notes a problem. -/
def Yields (p : Production) (c : Cursor) (r : Pattern) : Prop :=
  Clean (p.read c).problems (p.read c).made r

namespace Yields

variable {p q : Production} {c : Cursor} {r s : Pattern}

theorem mono (h : p.Yields c r) (hs : ∀ w ∈ r.matches', w ∈ s.matches') : p.Yields c s :=
  Clean.mono h hs

theorem skip : skip.Yields c 1 := fun _ => ⟨trivial, rfl⟩

theorem report {problem : Problem} : (report problem).Yields c r := nofun

theorem taking {ks : List TokenKind} (h : c.kind ∈ ks) (hn : .eof ∉ ks) :
    take.Yields c (.tokens ks) := by
  obtain ⟨n, ls⟩ := c
  cases ls with
  | nil => exact absurd h hn
  | cons l ls => exact fun _ => ⟨⟨trivial, trivial⟩, Pattern.mem_tokens.mpr ⟨l.kind, h, rfl⟩⟩

theorem take {k : TokenKind} (h : c.kind = k) (hn : k ≠ .eof) : take.Yields c (.token k) := by
  obtain ⟨n, ls⟩ := c
  cases ls with
  | nil => exact absurd h.symm hn
  | cons l ls => obtain rfl : l.kind = k := h; exact fun _ => ⟨⟨trivial, trivial⟩, rfl⟩

theorem append (hp : p.Yields c r) (hq : q.Yields (p.read c).rest s) :
    (p ++ q).Yields c (r * s) :=
  Clean.append hp hq

theorem look {next : Cursor → Production} (h : (next c).Yields c r) : (look next).Yields c r := h

theorem choose {test : Cursor → Bool} (hp : test c = true → p.Yields c r)
    (hq : test c = false → q.Yields c r) : (choose test p q).Yields c r := by
  rw [Yields, read_choose]
  split
  · rename_i ht; exact hp ht
  · rename_i ht; exact hq (by simpa using ht)

theorem optionalIf {test : Cursor → Bool} (hp : test c = true → p.Yields c r) :
    (Production.choose test p .skip).Yields c (.optional r) :=
  choose (fun h => (hp h).mono fun _ => .inl) fun _ => skip.mono fun _ => .inr

theorem optionalUnless {test : Cursor → Bool} (hp : test c = false → p.Yields c r) :
    (Production.choose test .skip p).Yields c (.optional r) :=
  choose (fun _ => skip.mono fun _ => .inr) fun h => (hp h).mono fun _ => .inl

/-- A node whose kind shows between two productions. -/
theorem mark {kind : Cursor → Kind} {k : NodeKind} {s' : Pattern} (hp : p.Yields c r)
    (hq : q.Yields (p.read c).rest s) (hk : kind (p.read c).rest = k)
    (h : (r * s).Forms k s') : (mark p kind q).Yields c s' := by
  rw [Yields, read_mark, hk]
  exact .node (.append hp hq) h

theorem mark_node {kind : Cursor → Kind} (k : NodeKind) (hp : p.Yields c r)
    (hq : q.Yields (p.read c).rest s) (hk : kind (p.read c).rest = k)
    (hr : k.production = r * s) (hs : ∀ ks, Symbol.ofNode k ks = .node k) :
    (Production.mark p kind q).Yields c (.node k) :=
  mark hp hq hk fun _ hw => ⟨hr ▸ hw, congrArg (fun t => [t]) (hs _)⟩

theorem node_of {k : NodeKind} (hp : p.Yields c r) (h : r.Forms k s) : (node k p).Yields c s := by
  refine mark hp skip rfl fun w hw => ?_
  obtain ⟨u, hu, _, rfl, rfl⟩ := Pattern.mem_mul.mp hw
  exact (List.append_nil u).symm ▸ h u hu

/-- A node below which a production makes what the rule says. -/
theorem node {k : NodeKind} (hp : p.Yields c k.production)
    (hk : ∀ ks, Symbol.ofNode k ks = .node k) : (node k p).Yields c (.node k) :=
  node_of hp fun _ hw => ⟨hw, congrArg (fun s => [s]) (hk _)⟩

theorem inList {t : Symbol} {ss : List Symbol} (h : p.Yields c (.char t)) (ht : t ∈ ss) :
    p.Yields c (.oneOf ss) :=
  h.mono fun _ hw => Pattern.mem_oneOf.mpr ⟨t, ht, hw⟩

theorem among {k : NodeKind} {ks : List NodeKind} (h : p.Yields c (.node k)) (hk : k ∈ ks) :
    p.Yields c (.nodes ks) :=
  h.mono fun _ hw => Pattern.mem_nodes.mpr ⟨k, hk, hw⟩

theorem weaken {ks ks' : List NodeKind} (h : p.Yields c (.nodes ks)) (hs : ks ⊆ ks') :
    p.Yields c (.nodes ks') := by
  refine h.mono fun w hw => ?_
  obtain ⟨k, hk, rfl⟩ := Pattern.mem_nodes.mp hw
  exact Pattern.mem_nodes.mpr ⟨k, hs hk, rfl⟩

/-- Rounds of a production. Each ends where the last one ends or before. -/
theorem rounds {test : Cursor → Bool} {n : Nat}
    (h : ∀ d, d.ahead.length ≤ c.ahead.length →
      (Assembly.trees.rounds test p.read n c).rest.ahead.length ≤ (p.read d).rest.ahead.length →
      test d = true → p.Yields d r) :
    Clean (Assembly.trees.rounds test p.read n c).problems
      (Assembly.trees.rounds test p.read n c).made r.star := by
  induction n generalizing c with
  | zero => exact fun _ => ⟨trivial, Pattern.nil_mem_star⟩
  | succ n ih =>
      simp only [Assembly.rounds] at h ⊢
      split
      · rename_i ht
        rw [if_pos ht] at h
        have hp := h c (Nat.le_refl _) (length_rest_rounds_le test p n _) ht
        have hr := length_rest_le p c
        have hs := ih fun d hd hl => h d (Nat.le_trans hd hr) hl
        refine (Clean.append hp hs).mono fun w hw => ?_
        obtain ⟨u, hu, v, hv, rfl⟩ := hw
        exact Pattern.append_mem_star hu hv
      · exact fun _ => ⟨trivial, Pattern.nil_mem_star⟩

theorem whileAt {test : Cursor → Bool}
    (h : ∀ d, d.ahead.length ≤ c.ahead.length → test d = true → p.Yields d r) :
    (whileAt test p).Yields c r.star :=
  rounds fun d hd _ => h d hd

theorem whileAt_cons {test : Cursor → Bool} (hc : c.ahead ≠ []) (ht : test c = true)
    (h : ∀ d, d.ahead.length ≤ c.ahead.length → test d = true → p.Yields d r) :
    (Production.whileAt test p).Yields c (r * r.star) := by
  obtain ⟨n, hn⟩ := Nat.exists_eq_succ_of_ne_zero (mt List.length_eq_zero_iff.mp hc)
  rw [Yields, read_whileAt, hn]
  simp only [Assembly.rounds]
  rw [if_pos ht]
  have hr := length_rest_le p c
  exact .append (h c (Nat.le_refl _) ht) (rounds fun d hd _ => h d (Nat.le_trans hd hr))

/-- Nodes of some kinds, one around the other. -/
theorem grow {ks : List NodeKind} {kind : Cursor → Option NodeKind}
    (hp : p.Yields c (.nodes ks))
    (h : ∀ d k, d.ahead.length ≤ c.ahead.length → kind d = some k → k ∈ ks ∧
      ∃ s, q.Yields d s ∧ (.nodes ks * s : Pattern).Forms k (.node k)) :
    (grow p kind q).Yields c (.nodes ks) := by
  unfold Yields
  rw [read_grow]
  split
  · have hr := length_rest_le p c
    unfold Yields at hp
    generalize p.read c = a at hp hr
    generalize a.rest.ahead.length = n
    induction n generalizing a with
    | zero => exact hp
    | succ n ih =>
        simp only [Assembly.grown]
        split
        · exact hp
        · rename_i k hk
          obtain ⟨hm, s, hq, hs⟩ := h _ k hr hk
          have hn := (Clean.append hp hq).node hs
          exact ih _ (hn.mono fun w hw => Pattern.mem_nodes.mpr ⟨k, hm, hw⟩)
            (Nat.le_trans (length_rest_le q _) hr)
  · exact hp

end Yields

/-! ## Below a number of lexemes -/

/-- A production yields a pattern wherever there are less than a number of lexemes ahead. -/
def YieldsBelow (p : Production) (n : Nat) (r : Pattern) : Prop :=
  ∀ c : Cursor, c.ahead.length < n → p.Yields c r

/-- A production reads a lexeme at least and yields a pattern. -/
structure Begins (p : Production) (c : Cursor) (r : Pattern) : Prop where
  lt : (p.read c).rest.ahead.length < c.ahead.length
  yields : p.Yields c r

variable {p q : Production} {c : Cursor} {r s : Pattern} {n : Nat}

theorem YieldsBelow.le {m : Nat} (h : p.YieldsBelow n r) (hm : m ≤ n) : p.YieldsBelow m r :=
  fun c hc => h c (Nat.lt_of_lt_of_le hc hm)

theorem Yields.append_below (hp : p.Yields c r) (hq : q.YieldsBelow n s) (hc : c.ahead.length < n) :
    (p ++ q).Yields c (r * s) :=
  .append hp (hq _ (Nat.lt_of_le_of_lt (length_rest_le p c) hc))

theorem YieldsBelow.append (hp : p.YieldsBelow n r) (hq : q.YieldsBelow n s) :
    (p ++ q).YieldsBelow n (r * s) :=
  fun c hc => .append_below (hp c hc) hq hc

theorem YieldsBelow.whileAt {test : Cursor → Bool}
    (h : ∀ c : Cursor, c.ahead.length < n → test c = true → p.Yields c r) :
    (Production.whileAt test p).YieldsBelow n r.star :=
  fun _ hc => .whileAt fun d hd => h d (by omega)

theorem Begins.taking {ks : List TokenKind} (h : c.kind ∈ ks) (hn : .eof ∉ ks) :
    Production.take.Begins c (.tokens ks) where
  lt := advances_take c fun ha => hn (by simpa [Cursor.kind, Cursor.peek, ha] using h)
  yields := .taking h hn

theorem Begins.take {k : TokenKind} (h : c.kind = k) (hn : k ≠ .eof) :
    Production.take.Begins c (.token k) where
  lt := advances_take c fun ha => hn (by rw [← h]; simp [Cursor.kind, Cursor.peek, ha])
  yields := .take h hn

theorem Begins.append (hp : p.Begins c r) (hq : q.YieldsBelow c.ahead.length s) :
    (p ++ q).Begins c (r * s) where
  lt := Nat.lt_of_le_of_lt (length_rest_le q _) hp.lt
  yields := .append hp.yields (hq _ hp.lt)

theorem Begins.followed (hp : p.Begins c r) (hq : ∀ d, q.Yields d s) : (p ++ q).Begins c (r * s) :=
  hp.append fun d _ => hq d

/-! ## Single lexemes -/

theorem yields_takeIf {k : TokenKind} (hn : k ≠ .eof) :
    (takeIf k).Yields c (.optional (.token k)) :=
  .optionalIf fun h => .take (by simpa [Cursor.isAt] using h) hn

theorem yields_expect {k : TokenKind} (hn : k ≠ .eof) (missing : Problem) :
    (expect k missing).Yields c (.token k) :=
  .choose (fun h => .take (by simpa [Cursor.isAt] using h) hn) fun _ => .report

theorem yields_require {k : TokenKind} (hn : k ≠ .eof) : (require k).Yields c (.token k) :=
  yields_expect hn _

theorem Begins.required {k : TokenKind} (hp : p.Begins c r) (hn : k ≠ .eof) :
    (p ++ require k).Begins c (r * .token k) :=
  hp.followed fun _ => yields_require hn

theorem yields_takeThen {k : TokenKind} (hn : k ≠ .eof) (h : ∀ c, p.Yields c r) :
    (takeThen k p).Yields c (.optional (.token k * r)) :=
  .optionalIf fun hk => .append (.take (by simpa [Cursor.isAt] using hk) hn) (h _)

theorem yields_requireThen {k : TokenKind} (hn : k ≠ .eof) (h : ∀ c, p.Yields c r) :
    (requireThen k p).Yields c (.token k * r) :=
  .choose (fun hk => .append (.take (by simpa [Cursor.isAt] using hk) hn) (h _)) fun _ => .report

theorem yields_name (h : c.kind.isName || c.kind.isKeyword) :
    name.Yields c (.node .identifierName) := by
  exact .node (.taking (List.mem_filter.mpr ⟨c.kind.mem_all, h⟩) (by decide)) fun _ => rfl

theorem yields_nameOr (missing : Problem) : (nameOr missing).Yields c (.node .identifierName) :=
  .choose (fun h => yields_name (by simp [h])) fun _ => .report

/-! ## Any tokens -/

/-- Makes leaves only. -/
def YieldsTokens (p : Production) : Prop := ∀ c, p.Yields c (Pattern.anyToken).star

namespace YieldsTokens

theorem skip : Production.skip.YieldsTokens := fun _ =>
  Yields.skip.mono fun _ h => h ▸ Pattern.nil_mem_star

theorem take : Production.take.YieldsTokens
  | ⟨_, []⟩ => fun _ => ⟨trivial, Pattern.nil_mem_star⟩
  | ⟨_, l :: _⟩ => fun _ => ⟨⟨trivial, trivial⟩, Pattern.append_mem_star
      (Pattern.mem_tokens.mpr ⟨l.kind, l.kind.mem_all, rfl⟩) Pattern.nil_mem_star⟩

theorem append (hp : p.YieldsTokens) (hq : q.YieldsTokens) : (p ++ q).YieldsTokens := fun c =>
  (Yields.append (hp c) (hq _)).mono fun _ ⟨_, hu, _, hv, hw⟩ => hw ▸ Pattern.append_star hu hv

theorem choose {test : Cursor → Bool} (hp : p.YieldsTokens) (hq : q.YieldsTokens) :
    (Production.choose test p q).YieldsTokens := fun c =>
  .choose (fun _ => hp c) fun _ => hq c

theorem takes (n : Nat) : (takes n).YieldsTokens := by
  induction n with
  | zero => exact .skip
  | succ n ih => exact .append .take ih

theorem balanced : balanced.YieldsTokens := by
  refine fun c => .look (append (takes _) ?_ c)
  split
  · exact fun _ => .report
  · exact .skip

theorem clause : clause.YieldsTokens := fun c => .look (takes _ c)

end YieldsTokens

end Production

end AlRefactor
