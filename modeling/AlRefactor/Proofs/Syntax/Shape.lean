import AlRefactor.Proofs.Syntax.Order

/-!
# The parts of procedures and of their sections

What the rules of the grammar say about where things can stand: no statement stands inside of a
declaration, and the variables of a procedure stand between its name and its body.
-/

namespace AlRefactor

/-! ## The symbols of a pattern -/

namespace Pattern

/-- The symbols that occur in a pattern. -/
def symbols : Pattern → List Symbol
  | .zero | .epsilon => []
  | .char s => [s]
  | .plus p q | .comp p q => symbols p ++ symbols q
  | .star p => symbols p

theorem mem_symbols {r : Pattern} {w : List Symbol} (h : w ∈ r.matches') :
    ∀ s ∈ w, s ∈ symbols r := by
  induction r generalizing w with
  | zero => exact h.elim
  | epsilon => rw [show w = [] from h]; nofun
  | char a =>
      intro s hs
      rwa [show w = [a] from h] at hs
  | plus p q ihp ihq =>
      intro s hs
      rcases h with h | h
      · exact List.mem_append_left _ (ihp h s hs)
      · exact List.mem_append_right _ (ihq h s hs)
  | comp p q ihp ihq =>
      obtain ⟨u, hu, v, hv, rfl⟩ := h
      intro s hs
      rcases List.mem_append.mp hs with hs | hs
      · exact List.mem_append_left _ (ihp hu s hs)
      · exact List.mem_append_right _ (ihq hv s hs)
  | star p ih =>
      obtain ⟨ws, rfl, hw⟩ := Language.mem_kstar.mp h
      intro s hs
      obtain ⟨u, hu, hs⟩ := List.mem_flatten.mp hs
      exact ih (hw u hu) s hs

/-- What holds of all symbols of a pattern holds of the symbols of a word that matches it. -/
theorem all_symbols {r : Pattern} {w : List Symbol} {p : Symbol → Bool} (hp : (symbols r).all p)
    (h : w ∈ r.matches') : ∀ s ∈ w, p s :=
  fun s hs => List.all_eq_true.mp hp s (mem_symbols h s hs)

/-- Every word that matches the pattern has a symbol of the kind. -/
def requires (k : Kind) : Pattern → Bool
  | .zero => true
  | .epsilon => false
  | .char s => s.kind == k
  | .plus p q => requires k p && requires k q
  | .comp p q => requires k p || requires k q
  | .star _ => false

theorem exists_of_requires {k : Kind} {r : Pattern} {w : List Symbol} (hr : requires k r)
    (h : w ∈ r.matches') : ∃ s ∈ w, s.kind = k := by
  induction r generalizing w with
  | zero => exact h.elim
  | epsilon => cases hr
  | char a =>
      rw [show w = [a] from h]
      exact ⟨a, List.mem_singleton_self a, beq_iff_eq.mp hr⟩
  | plus p q ihp ihq =>
      obtain ⟨hp, hq⟩ := Bool.and_eq_true_iff.mp hr
      exact h.elim (ihp hp) (ihq hq)
  | comp p q ihp ihq =>
      obtain ⟨u, hu, v, hv, rfl⟩ := h
      rcases Bool.or_eq_true_iff.mp hr with hr | hr
      · obtain ⟨s, hs, hk⟩ := ihp hr hu
        exact ⟨s, List.mem_append_left _ hs, hk⟩
      · obtain ⟨s, hs, hk⟩ := ihq hr hv
        exact ⟨s, List.mem_append_right _ hs, hk⟩
  | star p ih => cases hr

/-! ### Procedures and triggers -/

/-- What stands in a procedure or trigger before its variables. -/
def methodHeader (keyword : TokenKind) : Pattern :=
  attributes * (tokens [.kwLocal, .kwInternal, .kwProtected]).star *
    (token keyword *
      (node .identifierName * node .parameterList * optional (node .returnValue) *
        optional (token .semicolon)))

/-- The variables of a procedure or trigger stand behind its keyword and before its body. -/
theorem mem_method {k : TokenKind} {w : List Symbol} (h : w ∈ (method k).matches') :
    ∃ x y z, w = x ++ (y ++ z) ∧ Symbol.token k ∈ x ∧
      (∀ s ∈ x, s.kind ≠ NodeKind.varSection ∧ s.kind ≠ NodeKind.block) ∧
      (∀ s ∈ y, s.kind ≠ NodeKind.block) ∧ ∀ s ∈ z, s.kind ≠ NodeKind.varSection := by
  have ha : (method k).matches' = (methodHeader k * (optional (node .varSection) *
      optional (node .block * optional (token .semicolon)))).matches' := by
    simp only [method, methodHeader, RegularExpression.matches'_mul, mul_assoc]
  rw [ha] at h
  obtain ⟨x, hx, u, hu, rfl⟩ := h
  obtain ⟨y, hy, z, hz, rfl⟩ := hu
  refine ⟨x, y, z, rfl, ?_, fun s hs => ?_, fun s hs => ?_, fun s hs => ?_⟩
  · obtain ⟨a, _, b, ⟨c, hc, d, _, rfl⟩, rfl⟩ := hx
    rw [mem_token.mp hc]
    simp
  · have hp : (symbols (methodHeader k)).all fun s =>
        s.kind != NodeKind.varSection && s.kind != NodeKind.block := rfl
    simpa using all_symbols hp hx s hs
  · have hp : (symbols (optional (node .varSection))).all fun s => s.kind != NodeKind.block := rfl
    simpa using all_symbols hp hy s hs
  · have hp : (symbols (optional (node .block * optional (token .semicolon)))).all fun s =>
        s.kind != NodeKind.varSection := rfl
    simpa using all_symbols hp hz s hs

/-! ### Lists of variables -/

/-- The names of a list and the commas between them. -/
def listedNames : Pattern :=
  listedName * (token .comma * listedName * (token .comma * listedName).star)

/-- The names of a list of variables stand together, with nothing but commas between them. -/
theorem mem_variableListDeclaration {w : List Symbol}
    (h : w ∈ NodeKind.variableListDeclaration.production.matches') :
    ∃ x y z, w = x ++ (y ++ z) ∧ (∀ s ∈ x, s.kind ≠ NodeKind.variableDeclarationName) ∧
      (∀ s ∈ y, s.kind = TokenKind.comma ∨ s.kind = NodeKind.variableDeclarationName) ∧
      ∀ s ∈ z, s.kind ≠ NodeKind.variableDeclarationName := by
  have ha : NodeKind.variableListDeclaration.production.matches' =
      (attributes * (listedNames * (typed * token .semicolon))).matches' := by
    simp only [NodeKind.production, listedNames, RegularExpression.matches'_mul, mul_assoc]
  rw [ha] at h
  obtain ⟨x, hx, u, hu, rfl⟩ := h
  obtain ⟨y, hy, z, hz, rfl⟩ := hu
  refine ⟨x, y, z, rfl, fun s hs => ?_, fun s hs => ?_, fun s hs => ?_⟩
  · have hp : (symbols attributes).all fun s => s.kind != NodeKind.variableDeclarationName := rfl
    simpa using all_symbols hp hx s hs
  · have hp : (symbols listedNames).all fun s =>
        s.kind == TokenKind.comma || s.kind == NodeKind.variableDeclarationName := rfl
    simpa using all_symbols hp hy s hs
  · have hp : (symbols (typed * token .semicolon)).all fun s =>
        s.kind != NodeKind.variableDeclarationName := rfl
    simpa using all_symbols hp hz s hs

end Pattern

namespace NodeKind

/-- The kinds of single declarations and their parts, which have no statements in them. -/
def isDeclarative : NodeKind → Bool
  | .memberAttribute | .identifierName | .parameterList | .parameter | .typeReference | .returnValue
  | .variableDeclaration | .variableListDeclaration | .variableDeclarationName => true
  | _ => false

end NodeKind

namespace Kind

/-- Tokens, single declarations and their parts. -/
def isDeclarative : Kind → Bool
  | .token _ => true
  | .node k => k.isDeclarative

theorem of_isStatement {k : Kind} (h : k.isStatement) :
    k.isDeclarative = false ∧ k.isMethod = false ∧ k.isVarSection = false := by
  rcases k with k | k
  · cases h
  · cases k <;> first | exact ⟨rfl, rfl, rfl⟩ | cases h

theorem of_isMethod {k : Kind} (h : k.isMethod) : k.isObject = false ∧ k.isToken = false := by
  rcases k with k | k
  · cases h
  · cases k <;> first | exact ⟨rfl, rfl⟩ | cases h

theorem isMethod_of_isObject {k : Kind} (h : k.isObject) : k.isMethod = false :=
  Bool.eq_false_iff.mpr fun hm => by
    rw [(of_isMethod hm).1] at h
    cases h

theorem isDeclarative_of_isMethod {k : Kind} (h : k.isMethod) : k.isDeclarative = false := by
  rcases k with k | k
  · cases h
  · cases k <;> first | rfl | cases h

theorem isNamed_of_isMethod {k : Kind} (h : k.isMethod) : k.isNamed := by
  rcases k with k | k
  · cases h
  · cases k <;> first | rfl | cases h

end Kind

theorem Node.isAny_methods (n : Node) : n.isAny (NodeKind.methods.map .node) = n.kind.isMethod := by
  rw [isAny]
  cases n.kind with
  | token k => rfl
  | node k => cases k <;> rfl

theorem NodeKind.symbols_isDeclarative {k : NodeKind} (h : k.isDeclarative || k.isVarSection) :
    (Pattern.symbols k.production).all (·.kind.isDeclarative) := by
  cases k <;> first | decide +kernel | cases h

namespace SyntaxTree

variable {text : Text} {n m v c : Node}

theorem kind_symbol (n : Node) : n.symbol.kind = n.kind := Symbol.kind_ofNode ..

/-- What every word of a production has is a child of every node of the kind. -/
theorem exists_child? (h : (parse text).ok) (hn : n ∈ (parse text).nodes) {k : NodeKind}
    (hk : n.kind = k) {j : Kind} (hj : Pattern.requires j k.production) :
    ∃ m, n.child? j = some m := by
  obtain ⟨s, hs, hsk⟩ := Pattern.exists_of_requires hj (matches_of_kind h hn hk)
  obtain ⟨m, hm, rfl⟩ := List.mem_map.mp hs
  refine Option.isSome_iff_exists.mp (List.find?_isSome.mpr ⟨m, hm, ?_⟩)
  rw [Node.is, ← kind_symbol, hsk, beq_self_eq_true]

theorem solid_of_mem_children (h : (parse text).ok) (hn : n ∈ (parse text).nodes)
    (hm : m ∈ n.children) : text.Solid m.span :=
  solid h (mem_nodes_of_child hn hm)
    (Nat.ne_of_gt (Nat.zero_lt_of_lt (parent_of_mem_children hn hm).1))

/-- Nothing stands below a token. -/
theorem eq_of_below_token (h : (parse text).ok) (hn : n ∈ (parse text).nodes)
    (hm : m ∈ (parse text).nodes) (hk : n.kind.isToken)
    (hb : Below (parse text).entries n.id m.id) : n = m := by
  by_contra hne
  obtain ⟨c, hc, _⟩ := exists_child_of_below hn hb fun hi =>
    hne (eq_of_id hn hm hi)
  obtain ⟨_, _, hn⟩ | ⟨k, hnk, _⟩ := token_or_rule h hn
  · rw [hn] at hc
    cases hc
  · rw [hnk] at hk
    cases hk

theorem isDeclarative_of_mem_children (h : (parse text).ok) (hn : n ∈ (parse text).nodes)
    (hk : n.kind.isDeclarative || n.kind.isVarSection) (hc : c ∈ n.children) :
    c.kind.isDeclarative := by
  obtain ⟨_, _, hn⟩ | ⟨k, hnk, hr⟩ := token_or_rule h hn
  · rw [hn] at hc
    cases hc
  · rw [hnk] at hk
    have hs := Pattern.all_symbols (NodeKind.symbols_isDeclarative hk) hr c.symbol
      (List.mem_map_of_mem hc)
    rwa [kind_symbol] at hs

/-- Nothing but tokens and parts of declarations stands below a declaration. -/
theorem isDeclarative_of_below (h : (parse text).ok) (hn : n ∈ (parse text).nodes)
    (hm : m ∈ (parse text).nodes) (hb : Below (parse text).entries n.id m.id)
    (hk : n.kind.isDeclarative) : m.kind.isDeclarative :=
  @below_induction _ _ _ (fun a => a.kind.isDeclarative)
    (fun _ ha hk _ hc => isDeclarative_of_mem_children h ha (by simp [hk]) hc) hn hm hb hk

/-- Nothing but declarations and their parts stands below a section of variables. -/
theorem isDeclarative_of_section (h : (parse text).ok) (hv : v ∈ (parse text).nodes)
    (hk : v.kind.isVarSection) (hm : m ∈ (parse text).nodes)
    (hb : Below (parse text).entries v.id m.id) (hne : v.id ≠ m.id) : m.kind.isDeclarative := by
  obtain ⟨c, hc, hcm⟩ := exists_child_of_below hv hb hne
  exact isDeclarative_of_below h (mem_nodes_of_child hv hc) hm hcm
    (isDeclarative_of_mem_children h hv (by simp [hk]) hc)

theorem symbols_of_isMethod (h : (parse text).ok) (hn : n ∈ (parse text).nodes)
    (hk : n.kind.isMethod) : ∃ k, n.children.map (·.symbol) ∈ (Pattern.method k).matches' := by
  obtain ⟨_, hnk, _⟩ | ⟨k, hnk, hr⟩ := token_or_rule h hn
  · rw [hnk] at hk
    cases hk
  · rw [hnk] at hk
    cases k with
    | methodDeclaration | triggerDeclaration => exact ⟨_, hr⟩
    | _ => cases hk

/-- A statement of a procedure or trigger stands in its body. -/
theorem exists_block_of_below (h : (parse text).ok) (hn : n ∈ (parse text).nodes)
    (hk : n.kind.isMethod) (hm : m ∈ (parse text).nodes) (hs : m.kind.isStatement)
    (hb : Below (parse text).entries n.id m.id) :
    ∃ c ∈ n.children, c.kind = NodeKind.block ∧ Below (parse text).entries c.id m.id := by
  obtain ⟨hmd, hmm, hmv⟩ := Kind.of_isStatement hs
  have hne : n.id ≠ m.id := id_ne_of_kind (p := Kind.isMethod) hn hm hk hmm
  obtain ⟨c, hc, hcm⟩ := exists_child_of_below hn hb hne
  have hcn := mem_nodes_of_child hn hc
  refine ⟨c, hc, ?_, hcm⟩
  obtain ⟨k, hw⟩ := symbols_of_isMethod h hn hk
  have hp : (Pattern.symbols (Pattern.method k)).all fun s =>
      s.kind.isDeclarative || s.kind.isVarSection || s.kind == NodeKind.block := rfl
  have hp := Pattern.all_symbols hp hw c.symbol (List.mem_map_of_mem hc)
  simp only [kind_symbol, Bool.or_eq_true, beq_iff_eq] at hp
  rcases hp with (hd | hv) | hb
  · exact absurd (isDeclarative_of_below h hcn hm hcm hd) (by simp [hmd])
  · have hci : c.id ≠ m.id := id_ne_of_kind (p := Kind.isVarSection) hcn hm hv hmv
    exact absurd (isDeclarative_of_section h hcn hv hm hcm hci) (by simp [hmd])
  · exact hb

/-- What is no token and stands in a block stands in one of its statements. -/
theorem exists_statement_of_below (h : (parse text).ok) (hn : n ∈ (parse text).nodes)
    (hk : n.kind = NodeKind.block) (hm : m ∈ (parse text).nodes) (hmk : m.kind.isToken = false)
    (hb : Below (parse text).entries n.id m.id) (hne : n.id ≠ m.id) :
    ∃ c ∈ n.children, c.kind.isStatement ∧ Below (parse text).entries c.id m.id := by
  obtain ⟨c, hc, hcm⟩ := exists_child_of_below hn hb hne
  refine ⟨c, hc, ?_, hcm⟩
  have hp : (Pattern.symbols NodeKind.block.production).all fun s =>
      s.kind.isToken || s.kind.isStatement := rfl
  have hp := Pattern.all_symbols hp (matches_of_kind h hn hk) c.symbol
    (List.mem_map_of_mem hc)
  rw [kind_symbol, Bool.or_eq_true] at hp
  refine hp.resolve_left fun hct => ?_
  rw [eq_of_below_token h (mem_nodes_of_child hn hc) hm hct hcm, hmk] at hct
  cases hct

/-- The children of a procedure or trigger: some before its variables, then these, then the rest with
its body. -/
theorem exists_methodParts (h : (parse text).ok) (hn : n ∈ (parse text).nodes)
    (hk : n.kind.isMethod) : ∃ xs ys zs, n.children = xs ++ (ys ++ zs) ∧ xs ≠ [] ∧
      (∀ m ∈ xs, m.kind ≠ NodeKind.varSection ∧ m.kind ≠ NodeKind.block) ∧
      (∀ m ∈ ys, m.kind ≠ NodeKind.block) ∧ ∀ m ∈ zs, m.kind ≠ NodeKind.varSection := by
  obtain ⟨k, hw⟩ := symbols_of_isMethod h hn hk
  obtain ⟨x, u, z, hx, hkey, hX, hY, hZ⟩ := Pattern.mem_method hw
  obtain ⟨xs, us, hch, rfl, hu⟩ := List.map_eq_append_iff.mp hx
  obtain ⟨ys, zs, rfl, rfl, rfl⟩ := List.map_eq_append_iff.mp hu
  refine ⟨xs, ys, zs, hch, fun hn => ?_, fun m hm => ?_, fun m hm => ?_, fun m hm => ?_⟩
  · rw [hn] at hkey
    cases hkey
  · exact kind_symbol m ▸ hX _ (List.mem_map_of_mem hm)
  · exact kind_symbol m ▸ hY _ (List.mem_map_of_mem hm)
  · exact kind_symbol m ▸ hZ _ (List.mem_map_of_mem hm)

/-- A token of a procedure or trigger stands before its variables. -/
theorem token_before_section (h : (parse text).ok) (hn : n ∈ (parse text).nodes)
    (hk : n.kind.isMethod) (hv : v ∈ n.children) (hvk : v.kind = NodeKind.varSection) :
    ∃ p ∈ text.significant, n.start ≤ p.start ∧ p.stop ≤ v.start := by
  obtain ⟨xs, ys, zs, hch, hxs, hX, _, hZ⟩ := exists_methodParts h hn hk
  have ha := (ranged hn).apart
  rw [hch] at ha hv
  have hv : v ∈ ys := by
    rcases List.mem_append.mp hv with hv | hv
    · exact absurd hvk (hX v hv).1
    · exact (List.mem_append.mp hv).resolve_right fun hv => hZ v hv hvk
  obtain ⟨w, hw⟩ := List.exists_mem_of_ne_nil xs hxs
  have hwn : w ∈ n.children := hch ▸ List.mem_append_left _ hw
  obtain ⟨p, hp, hs, he⟩ := (solid_of_mem_children h hn hwn).first
  refine ⟨p, hp, hs ▸ (covers_of_mem_children hn hwn).1, Nat.le_trans he ?_⟩
  exact (List.pairwise_append.mp ha).2.2 w hw v (List.mem_append_left _ hv)

/-- The variables of a procedure or trigger stand before its body. -/
theorem section_before_block (h : (parse text).ok) (hn : n ∈ (parse text).nodes)
    (hk : n.kind.isMethod) (hv : v ∈ n.children) (hvk : v.kind = NodeKind.varSection)
    (hc : c ∈ n.children) (hck : c.kind = NodeKind.block) : v.stop ≤ c.start := by
  obtain ⟨xs, ys, zs, hch, _, hX, hY, hZ⟩ := exists_methodParts h hn hk
  have ha := (ranged hn).apart
  rw [hch] at ha hv hc
  have hv : v ∈ ys := by
    rcases List.mem_append.mp hv with hv | hv
    · exact absurd hvk (hX v hv).1
    · exact (List.mem_append.mp hv).resolve_right fun hv => hZ v hv hvk
  have hc : c ∈ zs := by
    rcases List.mem_append.mp hc with hc | hc
    · exact absurd hck (hX c hc).2
    · exact (List.mem_append.mp hc).resolve_left fun hc => hY c hc hck
  exact (List.pairwise_append.mp (List.pairwise_append.mp ha).2.1).2.2 v hv c hc

end SyntaxTree

end AlRefactor
