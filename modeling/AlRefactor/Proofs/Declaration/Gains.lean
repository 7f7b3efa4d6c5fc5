import AlRefactor.Proofs.Declaration.Reread

/-!
# A scope with one more variable

A variable that goes onto a line of its own is declared once the text is read again: in the first section
of its scope, or in a new one. All other parts of the scope are those of the first text.
-/

namespace AlRefactor

open AlRefactor.Tree Lexeme SyntaxTree Grammar

namespace Node

/-- The parts of a scope and, of another text, those of the same scope with one more variable. The new
text is between the lexemes `L` and others, from a place on. -/
inductive Gains (text t' : Text) (L S : List Lexeme) (core : Text) (place : Nat) (v : Variable) (n n' : Node) : Prop
  | extended {as as' bs bs' ws ws' xs xs' ys ys' : List Node} {s s' d : Node}
      (children : n.children = as ++ s :: bs) (children' : n'.children = as' ++ s' :: bs')
      (first : ∀ a ∈ as, a.kind ≠ n.kind.sectionKind)
      (kind : s.kind = n.kind.sectionKind) (kind' : s'.kind = n.kind.sectionKind)
      (parts : s.children = ws ++ (xs ++ ys)) (parts' : s'.children = ws' ++ (xs' ++ d :: ys'))
      (tokens : ∀ w ∈ ws, w.kind.isToken)
      (entries : ∀ e ∈ xs ++ ys, e.kind = NodeKind.variableDeclaration ∨ e.kind = NodeKind.variableListDeclaration)
      (suits : Suits v xs ys) (beside : text.isLineStart place → xs ++ ys ≠ [])
      (front : List.Forall₂ (Twin text t' L S) as as') (back : List.Forall₂ (Twin text t' L S) bs bs')
      (words : List.Forall₂ (Twin text t' L S) ws ws')
      (before : List.Forall₂ (Twin text t' L S) xs xs') (behind : List.Forall₂ (Twin text t' L S) ys ys')
      (line : d.IsLine v) (spans : d.Spans t' (Lexeme.solid L).length (Lexeme.solid (lex core)).length) :
      Gains text t' L S core place v n n'
  | opened {as as' bs bs' : List Node} {s w d : Node}
      (children : n.children = as ++ bs) (children' : n'.children = as' ++ s :: bs')
      (none : ∀ a ∈ as ++ bs, a.kind ≠ n.kind.sectionKind) (kind : s.kind = n.kind.sectionKind)
      (parts : s.children = [w, d]) (token : w.kind.isToken)
      (front : List.Forall₂ (Twin text t' L S) as as') (back : List.Forall₂ (Twin text t' L S) bs bs')
      (line : d.IsLine v) (spans : s.Spans t' (Lexeme.solid L).length (Lexeme.solid (lex core)).length) :
      Gains text t' L S core place v n n'

/-- New text on lines of its own in a scope, and the new text read. -/
structure Reread (text t' : Text) (e : Edit) (gap core behind : Text) (L B H M : List Lexeme) (v : Variable)
    (n n' : Node) : Prop where
  joins : e.Joins text gap core L M (B.flatMap (·.text)) behind
  text_eq : t' = L.flatMap (·.text) ++ ((B.flatMap (·.text) ++ (core ++ behind)) ++ M.flatMap (·.text))
  gap : gap = [] ∨ gap = text.newline ∧ n.kind.isMethod = false
  closed : Text.Closed core
  closes : Closes (lex core)
  before : Lexeme.solid B = []
  behind : Lexeme.solid H = []
  spliced : Spliced text t' L (B ++ (lex core ++ H)) M
  ok : (parse t').ok
  mem : n' ∈ (parse t').nodes
  id : n'.id = n.id
  kind : n'.kind = n.kind
  trees : ∃ (o : Hole) (t u d : Tree), forest text = o.plug t ∧ forest t' = o.plug u ∧ n.id = o.number + 1 ∧
    d.kind = NodeKind.variableDeclaration ∧ d.leaves = Lexeme.solid (lex v.sectionLine) ∧ Rescoped d t u
  gains : Gains text t' L (B ++ (lex core ++ H)) core e.span.start v n n'

variable {text gap core before behind : Text} {e : Edit} {n : Node} {v : Variable} {o : Hole} {t u : Tree}
  {l : Lexeme} {us : List Tree} {ts L M P Q : List Lexeme}

theorem exists_reread_of (h : (parse text).ok) (hf : forest text = o.plug t) (hi : n.id = o.number + 1)
    (hk : n.kind = t.kind) (hl : v.Line l us ts) (hj : e.Joins text gap core L M before behind)
    (hg : gap = [] ∨ gap = text.newline ∧ n.kind.isMethod = false) (hM : M ≠ [])
    (hc : Text.Closed core) (hcl : Closes (lex core)) (hr : Rescoped (Variable.declarationTree l us) t u)
    (ht : t.leaves = P ++ Q) (hu : u.leaves = P ++ (Lexeme.solid (lex core) ++ Q))
    (hL : (Lexeme.solid L).length = o.before.length + P.length)
    (hgains : ∀ t' B H n', Lexeme.solid B = [] → Spliced text t' L (B ++ (lex core ++ H)) M →
      Lexeme.solid (B ++ (lex core ++ H)) = Lexeme.solid (lex core) → Shows t' o.before.length [n'] [u] →
      Gains text t' L (B ++ (lex core ++ H)) core e.span.start v n n') :
    ∃ t' n' B H, Reread text t' e gap core behind L B H M v n n' := by
  obtain ⟨B, H, hB, hH, rfl, hs⟩ := hj.joins.spliced (hg.imp_right (·.1)) hj.cut hM hc
  have hS : Lexeme.solid (B ++ (lex core ++ H)) = Lexeme.solid (lex core) := by
    rw [solid_append, solid_append, hB, hH, List.nil_append, List.append_nil]
  obtain ⟨hok, hf'⟩ := forest_swapped h hf (hr.swaps hl.declares) hs ht (hS ▸ hu) hL
  obtain ⟨n', hn', hi', hsh⟩ := exists_shows hok hf'
  have hut : u.kind = t.kind := by cases hr <;> rfl
  exact ⟨_, n', B, H, hj, rfl, hg, hc, hcl, hB, hH, hs, hok, hn', hi'.trans hi.symm,
    (hsh.kind.trans hut).trans hk.symm, ⟨o, t, u, _, hf, hf', hi, rfl, hl.leaves, hr⟩, hgains _ B H n' hB hs hS hsh⟩

theorem rescoped_of_declared {j : Kind} {d : Tree} {cs cs' : List Tree} (hk : j.isMethod ∨ j.isObject)
    (h : Declared j.sectionKind j.closesVariables d cs cs') : Rescoped d (.node j cs) (.node j cs') := by
  by_cases hm : j.isMethod
  · rw [Kind.sectionKind, Kind.closesVariables, if_pos hm, if_pos hm] at h
    exact .method hm h
  · rw [Kind.sectionKind, Kind.closesVariables, if_neg hm, if_neg hm] at h
    exact .object (hk.resolve_left hm) h

theorem closes_line (hl : v.Line l us ts) : Closes (lex v.sectionLine) :=
  ⟨l :: Variable.colon :: ts, Lexeme.semicolon, hl.lexemes, rfl⟩

/-- Behind a section of variables more tokens stand. -/
theorem leaves_behind_section (h : (parse text).ok) {j : Kind} {hs rs : List Tree} {r : Tree}
    (hf : forest text = o.plug (.node j (hs ++ r :: rs)))
    (hr : r.kind = j.sectionKind) : leavesOf rs ++ o.behind ≠ [] := by
  have hrule := rule_forest h
  rw [hf] at hrule
  by_cases hm : j.isMethod
  · have hb := Hole.behind_ne_nil hrule (show Kind.isMember j by rw [Kind.isMember, hm, Bool.true_or])
    exact List.append_ne_nil_of_right_ne_nil _ hb
  · rw [Kind.sectionKind, if_neg hm] at hr
    have hb := leavesOf_ne_nil_behind (Hole.everywhere_plug hrule.2) (t := r) (by rw [hr]; rfl)
    exact List.append_ne_nil_of_left_ne_nil hb _

section Extended

variable {s : Node} {as bs ws xs ys : List Node} {parts hts rts wts ets fts : List Tree} {j : Kind} {i k place : Nat}

/-- The trees of a scope with one more variable between the entries of its section. -/
theorem SectionPlace.declared (hp : SectionPlace text s v k parts ws xs ys wts ets fts) (d : Tree)
    (hf : ∀ u ∈ hts, u.kind ≠ j.sectionKind) :
    Declared j.sectionKind j.closesVariables d (hts ++ .node j.sectionKind (wts ++ (ets ++ fts)) :: rts)
      (hts ++ .node j.sectionKind (wts ++ (ets ++ d :: fts)) :: rts) := by
  have hkind {zs : List Node} {zts : List Tree} {k : Nat} (hz : Shows text k zs zts)
      (hm : ∀ z ∈ zs, z ∈ xs ++ ys) : ∀ a ∈ zts, a.kind.isToken = false :=
    hz.forall_kind (P := fun k => k.isToken = false) fun z hz => by
      rcases hp.kinds z (hm z hz) with hk | hk <;> rw [hk] <;> rfl
  refine .extended hf (hp.words.forall_kind (P := fun k => k.isToken) hp.tokens) fun a ha => ?_
  rcases List.mem_append.mp ha with ha | ha
  · exact hkind hp.front (fun z hz => List.mem_append_left _ hz) a ha
  · exact hkind hp.back (fun z hz => List.mem_append_right _ hz) a ha

/-- The parts of a scope with one more variable between the entries of its section. -/
theorem SectionPlace.gains (hp : SectionPlace text s v (i + (leavesOf hts).length) parts ws xs ys wts ets fts)
    (hl : v.Line l us ts) (hx : n.children = as ++ s :: bs) (has : ∀ a ∈ as, a.kind ≠ n.kind.sectionKind)
    (hsk : s.kind = n.kind.sectionKind) (hnj : n.kind = j) (hfront : Shows text i as hts)
    (hback : Shows text (i + (leavesOf hts).length + (leavesOf parts).length) bs rts)
    (hL : (Lexeme.solid L).length = i + (leavesOf hts).length + (leavesOf wts).length + (leavesOf ets).length)
    (hbeside : text.isLineStart place → xs ++ ys ≠ []) {t' : Text} {B H : List Lexeme} {n' : Node}
    (hB : Lexeme.solid B = []) (hsp : Spliced text t' L (B ++ (lex v.sectionLine ++ H)) M)
    (hS : Lexeme.solid (B ++ (lex v.sectionLine ++ H)) = Lexeme.solid (lex v.sectionLine))
    (hsh : Shows t' i [n'] [.node j (hts ++ .node j.sectionKind
      (wts ++ (ets ++ Variable.declarationTree l us :: fts)) :: rts)]) :
    Gains text t' L (B ++ (lex v.sectionLine ++ H)) v.sectionLine place v n n' := by
  have hd : (Lexeme.solid (B ++ (lex v.sectionLine ++ H))).length =
      (Variable.declarationTree l us).leaves.length := by rw [hS, hl.leaves]
  have hparts := congrArg (fun ts => (leavesOf ts).length) hp.parts
  simp only [leavesOf_append, List.length_append] at hparts
  have hsection : (Tree.node j.sectionKind (wts ++ (ets ++ Variable.declarationTree l us :: fts))).leaves.length =
      (leavesOf parts).length + (Variable.declarationTree l us).leaves.length := by
    simp only [Tree.leaves, leavesOf_append, leavesOf, List.length_append]
    omega
  obtain ⟨as', us', hx', hfront', hu'⟩ := hsh.children.split_trees
  cases hu' with
  | @cons _ s' bs' _ _ hsn' hsk' _ hsc' hback' =>
  obtain ⟨ws', vs, hxw, hwords', hv'⟩ := hsc'.split_trees
  obtain ⟨xs', vs', rfl, hxs', hv''⟩ := hv'.split_trees
  cases hv'' with
  | @cons _ d ys' _ _ hdn hdk hds hdc hys' =>
  rw [← hL] at hds hdc
  have hline : d.IsLine v := by
    have hA : Lexeme.solid (L ++ B) = Lexeme.solid L := by rw [solid_append, hB, List.append_nil]
    refine isLine_of_shows hl (A := L ++ B) (C := H ++ M) (by rw [hsp.eq']; simp) ?_
    rw [hA]
    exact .cons hdn hdk hds hdc .nil
  refine .extended hx hx' has hsk (hsk'.trans (by rw [hnj]; rfl)) hp.children hxw hp.tokens hp.kinds hp.suits
    hbeside ?_ ?_ ?_ ?_ ?_ hline (by rw [← hl.leaves]; exact hds)
  · exact twins (.inl ⟨rfl, by omega⟩) hfront hfront'
  · exact twins (.inr ⟨by omega, by omega⟩) hback hback'
  · exact twins (.inl ⟨rfl, by omega⟩) hp.words hwords'
  · exact twins (.inl ⟨rfl, by omega⟩) hp.front hxs'
  · exact twins (.inr ⟨by omega, by omega⟩) hp.back hys'

end Extended

/-- A variable that is added to a section of its scope. -/
theorem exists_extended (h : (parse text).ok) {j : Kind} {cs : List Tree}
    (hf : forest text = o.plug (.node j cs)) (hi : n.id = o.number + 1)
    (hs : Shows text o.before.length [n] [.node j cs]) (hj : j.isMethod ∨ j.isObject) (hv : v.Declarable)
    {s : Node} (hc : n.child? n.kind.sectionKind = some s) (ho : (s.addToSection v).OnOwnLine text) :
    ∃ t' n' gap core behind L B H M, Reread text t' (s.addToSection v) gap core behind L B H M v n n' := by
  obtain ⟨l, us, ts, hl⟩ := hv.exists_line
  have hnj : n.kind = j := hs.kind
  obtain ⟨hsk, as, bs, hx, has⟩ := List.find?_eq_some_iff_append.mp hc
  have hsk : s.kind = n.kind.sectionKind := by simpa [is] using hsk
  have has : ∀ a ∈ as, a.kind ≠ n.kind.sectionKind := fun a ha => by simpa [is] using has a ha
  have hch : Shows text o.before.length n.children cs := hs.children
  rw [hx] at hch
  obtain ⟨hts, r, rts, rfl, hfront, hr, hback⟩ := hch.split_at
  obtain ⟨parts, rfl⟩ : ∃ parts, r = .node (.node j.sectionKind) parts := by
    have hrk : r.kind = .node j.sectionKind := by rw [← hr.kind, hsk, hnj]
    cases r with
    | leaf l => cases hrk
    | node k parts => exact ⟨parts, by rw [← hrk]; rfl⟩
  have hsec : s.kind.isVarSection := by
    rw [hsk, Kind.sectionKind]
    split <;> rfl
  have hbehind := List.length_pos_of_ne_nil (leaves_behind_section h hf rfl)
  have htotal := congrArg List.length (leavesOf_plug hf)
  simp only [Tree.leaves, leavesOf_append, leavesOf, List.length_append] at hbehind htotal
  obtain ⟨ws, xs, ys, wts, ets, fts, L, M, before, behind, hp, hjoin, hL, hbeside⟩ :=
    exists_addToSection h hv hr hsec ho (by omega)
  have hno : ∀ u ∈ hts, u.kind ≠ j.sectionKind :=
    hnj ▸ hfront.forall_kind (P := fun k => k ≠ n.kind.sectionKind) has
  obtain rfl := hp.parts
  simp only [leavesOf_append, List.length_append] at htotal
  obtain ⟨t', n', B, H, hre⟩ := exists_reread_of (P := leavesOf hts ++ (leavesOf wts ++ leavesOf ets))
    (Q := leavesOf fts ++ leavesOf rts) h hf hi hs.kind hl hjoin (.inl rfl) (hjoin.cut.ne_nil (by omega))
    (Text.closed_line hv) (closes_line hl) (rescoped_of_declared hj (hp.declared _ hno))
    (by simp [Tree.leaves, leavesOf]) (by simp [Tree.leaves, leavesOf, ← hl.leaves]) (by simp; omega)
    fun t' B H n' => hp.gains hl hx has hsk hnj hfront hback hL hbeside
  exact ⟨t', n', [], v.sectionLine, behind, L, B, H, M, hre⟩

section Opened

variable {w : Text} {j : Kind} {hts rts : List Tree} {r : Tree} {i place : Nat}

theorem lex_section (hw : ∀ c ∈ w, Text.isIndent c) (hv : v.Declarable) (t : Text) :
    lex (t.sectionText w v.sectionLine) =
      Text.wordVar :: ⟨.newline, t.newline⟩ :: (Text.blanks w ++ lex v.sectionLine) := by
  have hx := Text.lex_sectionText hw (Text.closed_line hv) t []
  rwa [List.append_nil, show lex [] = [] by simp [lex], List.append_nil] at hx

theorem solid_section (hw : ∀ c ∈ w, Text.isIndent c) (hv : v.Declarable) (t : Text) :
    Lexeme.solid (lex (t.sectionText w v.sectionLine)) = Text.wordVar :: Lexeme.solid (lex v.sectionLine) := by
  rw [lex_section hw hv, solid_cons rfl]
  show _ :: Lexeme.solid (Text.blanks w ++ _) = _
  rw [solid_append, Text.solid_blanks]
  rfl

theorem closes_section (hw : ∀ c ∈ w, Text.isIndent c) (hv : v.Declarable) (hl : v.Line l us ts) (t : Text) :
    Closes (lex (t.sectionText w v.sectionLine)) := by
  obtain ⟨ms, z, hz, hzs⟩ := closes_line hl
  refine ⟨Text.wordVar :: ⟨.newline, t.newline⟩ :: (Text.blanks w ++ ms), z, ?_, hzs⟩
  rw [lex_section hw hv, hz]
  simp

theorem leaves_newSection (hl : v.Line l us ts) (k : NodeKind) :
    (newSection k (Variable.declarationTree l us)).leaves = Text.wordVar :: Lexeme.solid (lex v.sectionLine) := by
  rw [newSection, Tree.leaves, leavesOf, leavesOf, leavesOf, Tree.leaves, hl.leaves, List.append_nil]
  rfl

/-- The parts of a scope with a new section for a variable. -/
theorem gains_opened (hw : ∀ c ∈ w, Text.isIndent c) (hv : v.Declarable) (hl : v.Line l us ts)
    (hch : Shows text i n.children (hts ++ r :: rts))
    (hno : ∀ a ∈ n.children, a.kind ≠ n.kind.sectionKind) (hnj : n.kind = j)
    (hL : (Lexeme.solid L).length = i + (leavesOf hts).length) {t' : Text} {B H : List Lexeme} {n' : Node}
    (hB : Lexeme.solid B = [])
    (hsp : Spliced text t' L (B ++ (lex (text.sectionText w v.sectionLine) ++ H)) M)
    (hS : Lexeme.solid (B ++ (lex (text.sectionText w v.sectionLine) ++ H)) =
      Lexeme.solid (lex (text.sectionText w v.sectionLine)))
    (hsh : Shows t' i [n'] [.node j (hts ++ newSection j.sectionKind (Variable.declarationTree l us) :: r :: rts)]) :
    Gains text t' L (B ++ (lex (text.sectionText w v.sectionLine) ++ H)) (text.sectionText w v.sectionLine)
      place v n n' := by
  have hcore := (solid_section hw hv text).trans (leaves_newSection hl j.sectionKind).symm
  have hd : (Lexeme.solid (B ++ (lex (text.sectionText w v.sectionLine) ++ H))).length =
      (newSection j.sectionKind (Variable.declarationTree l us)).leaves.length := by rw [hS, hcore]
  obtain ⟨as, bs, hx, hfront, hback⟩ := hch.split_trees
  obtain ⟨as', us', hx', hfront', hu'⟩ := hsh.children.split_trees
  cases hu' with
  | @cons _ s bs' _ _ hsn hsk hss hsc hback' =>
  rw [newSection, Tree.parts] at hsc
  generalize hns : s.children = ns at hsc
  cases hsc with
  | @cons _ w' _ _ _ _ hwk _ _ hsc =>
  cases hsc with
  | @cons _ d _ _ _ hdn hdk hds hdc hsc =>
  cases hsc
  rw [← hL] at hss hds hdc
  have hline : d.IsLine v := by
    have hA : Lexeme.solid (L ++ (B ++ Text.wordVar :: ⟨.newline, text.newline⟩ :: Text.blanks w)) =
        Lexeme.solid L ++ [Text.wordVar] := by
      rw [solid_append, solid_append, hB, solid_cons rfl]
      show _ ++ ([] ++ Text.wordVar :: Lexeme.solid (Text.blanks w)) = _
      rw [Text.solid_blanks]
      rfl
    refine isLine_of_shows hl (A := L ++ (B ++ Text.wordVar :: ⟨.newline, text.newline⟩ :: Text.blanks w))
      (C := H ++ M) (by rw [hsp.eq', lex_section hw hv]; simp) ?_
    rw [hA, List.length_append]
    exact .cons hdn hdk hds hdc .nil
  refine .opened hx hx' (fun a ha => hno a (hx ▸ ha)) (hsk.trans (by rw [hnj]; rfl)) hns (by rw [hwk]; rfl)
    ?_ ?_ hline (by rw [hcore]; exact hss)
  · exact twins (.inl ⟨rfl, by omega⟩) hfront hfront'
  · exact twins (.inr ⟨by omega, by omega⟩) hback hback'

end Opened

/-- A variable that is declared in a new section of its scope. -/
theorem exists_opened (h : (parse text).ok) {j : Kind} {cs : List Tree}
    (hf : forest text = o.plug (.node j cs)) (hi : n.id = o.number + 1)
    (hs : Shows text o.before.length [n] [.node j cs]) (hj : j.isMethod ∨ j.isObject) (hk : n.IsScope)
    (hv : v.Declarable) (hc : n.child? n.kind.sectionKind = none) (he : n.insertSection? v = some e) :
    ∃ t' n' gap core behind L B H M, Reread text t' e gap core behind L B H M v n n' := by
  obtain ⟨l, us, ts, hl⟩ := hv.exists_line
  have hnj : n.kind = j := hs.kind
  obtain ⟨e', gap, w, m, hts, r, rts, L, M, before, behind, he', hg, hw, hopen, hjoin, hL⟩ :=
    exists_insertSection h hs hk v
  obtain rfl : e = e' := Option.some.inj (he.symm.trans he')
  obtain rfl := hopen.parts
  have hch : Shows text o.before.length n.children (hts ++ r :: rts) := hs.children
  have hno : ∀ a ∈ n.children, a.kind ≠ n.kind.sectionKind := fun a ha => by
    simpa [is] using List.find?_eq_none.mp hc a ha
  have hdec : Declared j.sectionKind j.closesVariables (Variable.declarationTree l us) (hts ++ r :: rts)
      (hts ++ newSection j.sectionKind (Variable.declarationTree l us) :: r :: rts) :=
    .opened (fun u hu => hnj ▸ hch.forall_kind (P := fun k => k ≠ n.kind.sectionKind) hno u hu)
      (fun u hu => hnj ▸ hopen.before u hu) (hnj ▸ hopen.closes)
  have hM : M ≠ [] := by
    obtain ⟨i, hi⟩ := hopen.spans
    exact hjoin.cut.ne_nil (by rw [hL]; exact hi.lt)
  obtain ⟨t', n', B, H, hre⟩ := exists_reread_of (P := leavesOf hts) (Q := leavesOf (r :: rts)) h hf hi hs.kind hl
    hjoin hg hM (Text.closed_section hw (Text.closed_line hv) text) (closes_section hw hv hl text)
    (rescoped_of_declared hj hdec) (by simp [Tree.leaves, leavesOf])
    (by simp [Tree.leaves, leavesOf, solid_section hw hv, leaves_newSection hl]) hL
    fun t' B H n' => gains_opened hw hv hl hch hno hnj hL
  exact ⟨t', n', gap, _, behind, L, B, H, M, hre⟩

/-- A procedure, a trigger or an object shows a tree of its text. -/
theorem exists_scopeTree (h : (parse text).ok) (hn : n ∈ (parse text).nodes)
    (hk : n.kind.isMethod ∨ n.kind.isObject) : ∃ (o : Hole) (j : Kind) (cs : List Tree),
      forest text = o.plug (.node j cs) ∧ n.id = o.number + 1 ∧ Shows text o.before.length [n] [.node j cs] := by
  have hid : n.id ≠ 0 := fun hi => by
    rw [kind_root hn hi] at hk
    rcases hk with hk | hk <;> cases hk
  obtain ⟨o, t, hf, hi, hs⟩ := exists_plug h hn hid
  cases t with
  | leaf l =>
      rw [hs.kind] at hk
      rcases hk with hk | hk <;> cases hk
  | node j cs => exact ⟨o, j, cs, hf, hi, hs⟩

/-- A variable that goes onto a line of its own is declared when the text is read again. -/
theorem exists_reread (h : (parse text).ok) (hn : n ∈ (parse text).nodes) (hk : n.kind.isMethod ∨ n.IsScope)
    (hv : v.Declarable) (he : n.declare? v = some e) (ho : e.OnOwnLine text) :
    ∃ t' n' gap core behind L B H M, Reread text t' e gap core behind L B H M v n n' := by
  have hkind : n.kind.isMethod ∨ n.kind.isObject := hk.elim .inl fun hs => hs.imp (·.1) (·.1)
  obtain ⟨o, j, cs, hf, hi, hs⟩ := exists_scopeTree h hn hkind
  have hj : j.isMethod ∨ j.isObject := by rwa [hs.kind] at hkind
  have he : (n.child? n.kind.sectionKind).elim (n.insertSection? v) (fun s => some (s.addToSection v)) = some e := by
    rw [declare?_eq] at he
    rw [Kind.sectionKind]
    split at he
    · rwa [if_pos ‹_›]
    · rw [if_neg ‹_›]
      rwa [if_pos (hkind.resolve_left ‹_›)] at he
  cases hc : n.child? n.kind.sectionKind with
  | some s =>
      rw [hc] at he
      obtain rfl : s.addToSection v = e := Option.some.inj he
      exact exists_extended h hf hi hs hj hv hc ho
  | none =>
      rw [hc] at he
      have hscope : n.IsScope := by
        rcases hk with hm | hk
        · -- A new section of a procedure goes before its body.
          refine .inl ⟨hm, ?_⟩
          cases hb : n.child? NodeKind.block with
          | some b => exact ⟨b, rfl⟩
          | none => simp [insertSection?, sectionPlace?, hm, hb] at he
        · exact hk
      exact exists_opened h hf hi hs hj hscope hv hc he

end Node

end AlRefactor
