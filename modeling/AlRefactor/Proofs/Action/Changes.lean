import AlRefactor.Action.Global
import AlRefactor.Action.Label
import AlRefactor.Action.Validate
import AlRefactor.Proofs.Declaration.Objects
import AlRefactor.Proofs.Edit.Insertion

/-!
# Changes that need no command

A local moves to the globals by deletions in its section and one insertion, which goes before its
procedure or behind what is deleted. A literal is one token, so the declaration of its label goes before
it or behind it.
-/

namespace AlRefactor

open SyntaxTree

variable {text : Text} {n m o v : Node} {e : Edit} {es : List Edit} {p : Nat} {s : Span}

namespace Edit

theorem Adds.beside (he : e.Adds text) {u : Span} (hu : u.start ≤ u.stop) (t : Text)
    (h : e.span.start ≤ u.start ∨ u.stop ≤ e.span.start) : e.Apart ⟨u, t⟩ := by
  have hle := Nat.le_of_eq he.1
  rcases h with h | h
  · exact .of_le hle hu (he.1 ▸ h)
  · exact (Apart.of_le hu hle h).symm

/-- The line of a node up to the end of the node. -/
theorem cut_line (h : (parse text).ok) (hm : m ∈ (parse text).nodes) (hi : m.id ≠ 0)
    (hl : m.startsLine) : (delete ⟨m.lineStart, m.stop⟩).Cut text m.span := by
  have hs := solid h hm hi
  refine ⟨m.span, hs, Nat.le_refl _, Nat.le_refl _, Text.Widened.within ?_ hs⟩
  obtain ⟨_, _, _, _, hb⟩ := Text.startsLine?_eq (seams hm).1.1.boundary
  have hw : m.lineStart = text.lineStart m.span.start := by rw [Node.lineStart, tree_text hm]; rfl
  exact ⟨Node.bare_lineStart hm hl, .inr ⟨hw, hw ▸ hb⟩, .refl hs.seams.2.boundary, .inl rfl⟩

/-- What is cut before a node does not reach the places beside the node. -/
theorem Cut.le_place (he : e.Cut text s) (h : (parse text).ok) (hm : m ∈ (parse text).nodes)
    (hi : m.id ≠ 0) (hle : s.stop ≤ m.start) (hp : m.Place p) : e.span.stop ≤ p := by
  have hs := solid h hm hi
  have hstart : e.span.stop ≤ m.start := he.stop_le (.of_solid hs []) hle
  cases hp with
  | lead hp =>
      rcases hp with rfl | ⟨hl, rfl⟩
      · exact hstart
      · exact he.stop_le (cut_line h hm hi hl) hle
  | stop => exact Nat.le_trans hstart (ranged hm).start_le_stop
  | full => exact Nat.le_trans hstart (Nat.le_trans (ranged hm).start_le_stop (stop_le_full hm))

end Edit

theorem Node.Place.le_full (hm : m ∈ (parse text).nodes) (hp : m.Place p) : p ≤ m.full.stop := by
  have hle := Nat.le_trans (ranged hm).start_le_stop (stop_le_full hm)
  cases hp with
  | lead hp =>
      rcases hp with rfl | ⟨_, rfl⟩
      · exact hle
      · exact Nat.le_trans (lineStart_le hm) hle
  | stop => exact stop_le_full hm
  | full => exact Nat.le_refl _

/-! ## Declarations of an object -/

/-- A global is declared beside a section of globals or one of its children, or before a procedure or
the end of the object. -/
theorem Node.of_declare?_object {w : Variable} (ho : o ∈ (parse text).nodes)
    (hok : o.kind.isObject) (he : o.declare? w = some e) :
    ∃ c ∈ o.children, ∃ m, m.Place e.span.start ∧
      (c.kind = NodeKind.globalVarSection ∧ (m = c ∨ m ∈ c.children) ∨
        (c.kind.isMethod ∨ c.kind = TokenKind.rBrace) ∧ m = c ∧ m.Lead e.span.start) := by
  have hm := Kind.isMethod_of_isObject hok
  obtain ⟨k, _, hk, ⟨c, hc, rfl⟩ | he⟩ := of_declare? he
  · obtain ⟨hco, hck⟩ := mem_of_child? hc
    obtain ⟨m, hmc, _, hp⟩ := place_addToSection (n := c) w
    exact ⟨c, hco, m, hp, .inl ⟨by rw [hck, hk hm], hmc⟩⟩
  · obtain ⟨a, _, m, hma, _, hl, hk⟩ := lead_insertSection? ho he
    obtain ⟨rfl, hmk⟩ := hk hm
    exact ⟨m, hma, m, .lead hl, .inr ⟨hmk, rfl, hl⟩⟩

/-- A node and its children lie in its full range. -/
theorem Node.within_of_child {a c : Node} (hc : c ∈ (parse text).nodes) (hi : c.id ≠ 0)
    (ha : a = c ∨ a ∈ c.children) :
    a ∈ (parse text).nodes ∧ a.id ≠ 0 ∧ c.start ≤ a.start ∧ a.full.stop ≤ c.full.stop := by
  rcases ha with rfl | ha
  · exact ⟨hc, hi, Nat.le_refl _, Nat.le_refl _⟩
  · refine ⟨mem_nodes_of_child hc ha, id_ne_zero hc ha, (covers_of_mem_children hc ha).1, ?_⟩
    have hf := ((ranged hc).covers a ha).2
    rw [Span.covers, Bool.and_eq_true, decide_eq_true_eq, decide_eq_true_eq] at hf
    exact hf.2

/-- A global is declared before a procedure or behind what is cut from it. -/
theorem Node.declare?_beside {w : Variable} (h : (parse text).ok) (ho : o ∈ (parse text).nodes)
    (hok : o.kind.isObject) (he : o.declare? w = some e) (hm : m ∈ (parse text).nodes)
    (hmk : m.kind.isMethod) (hb : Below (parse text).entries o.id m.id) (hle : s.stop ≤ m.stop) :
    e.span.start ≤ m.start ∨ ∀ f : Edit, f.Cut text s → f.span.stop ≤ e.span.start := by
  obtain ⟨c, hc, a, hp, hca⟩ := of_declare?_object ho hok he
  have hcn := mem_nodes_of_child ho hc
  have hac : a = c ∨ a ∈ c.children := hca.elim (·.2) (.inl ·.2.1)
  obtain ⟨han, hai, hstart, hstop⟩ := within_of_child hcn (id_ne_zero ho hc) hac
  have hne : o.id ≠ m.id := id_ne_of_kind (p := Kind.isObject) ho hm hok (Kind.of_isMethod hmk).1
  rcases child_beside_below ho hm hc hb hne with hcm | hcm | hcm
  · -- Only a procedure can be around another one.
    left
    rcases hca with ⟨hck, _⟩ | ⟨hck | hck, rfl, hl⟩
    · have hcm' := id_ne_of_kind (p := Kind.isMethod) hm hcn hmk (by rw [hck]; rfl)
      have hd := isDeclarative_of_section h hcn (by rw [hck]; rfl) hm hcm hcm'.symm
      rw [Kind.isDeclarative_of_isMethod hmk] at hd
      cases hd
    · have hle := (covers_of_below hcn hm hcm).1
      rcases hl with hl | ⟨_, hl⟩
      · exact hl ▸ hle
      · exact hl ▸ Nat.le_trans (lineStart_le hcn) hle
    · rw [← eq_of_below_token h hcn hm (by rw [hck]; rfl) hcm, hck] at hmk
      cases hmk
  · exact .inl (Nat.le_trans (hp.le_full han) (Nat.le_trans hstop hcm))
  · refine .inr fun f hf => hf.le_place h han hai ?_ hp
    exact Nat.le_trans hle (Nat.le_trans (stop_le_full hm) (Nat.le_trans hcm hstart))

/-! ## Locals that become globals -/

theorem Node.isAny_sections (n : Node) :
    n.isAny [NodeKind.varSection, NodeKind.globalVarSection] = n.kind.isVarSection := by
  rw [isAny]
  cases n.kind with
  | token k => rfl
  | node k => cases k <;> rfl

namespace MoveToGlobal

/-- A local of a procedure. -/
structure IsLocal (text : Text) (n m v : Node) : Prop where
  node : n ∈ (parse text).nodes
  method : m ∈ (parse text).nodes ∧ m.kind.isMethod ∧ Below (parse text).entries m.id n.id
  sect : v ∈ m.children ∧ v.kind = NodeKind.varSection ∧ n.varSection? = some v

theorem exists_isLocal {span : Span} (h : (parse text).ok)
    (hn : declarationAt? (parse text) span = some n) : ∃ m v, IsLocal text n m v := by
  simp only [declarationAt?, Option.bind_eq_bind, Option.bind_eq_some_iff] at hn
  obtain ⟨a, ha, v, hv, hn⟩ := hn
  split at hn
  · rename_i hvk
    cases hn
    have hvk : v.kind = NodeKind.varSection := by simpa [Node.is] using hvk
    obtain ⟨hn, hnk⟩ := of_findAt? ha
    obtain ⟨hvn, hvb, _⟩ := of_ancestorAmong? hn hv
    obtain ⟨m, hm, hvm, hmk⟩ := exists_method_of_section h hvn hvk
    refine ⟨m, v, hn, ⟨hm, hmk, (below_of_mem_children hm hvm).trans hvb⟩, hvm, hvk, ?_⟩
    have hnv : n.kind.isVarSection = false := by
      simp only [Node.isAny, List.contains_cons, List.contains_nil, Bool.or_false, Bool.or_eq_true,
        beq_iff_eq] at hnk
      rcases hnk with hnk | hnk <;> rw [hnk] <;> rfl
    have ht : n.ancestors = n :: n.ancestors.tail := by rw [Node.ancestors, List.tail_cons]
    rw [Node.varSection?, ht, List.find?_cons, hnv, ← hv, Node.ancestorAmong?]
    exact congrArg (List.find? · _) (funext fun a => (Node.isAny_sections a).symm)
  · cases hn

theorem object_above (h : (parse text).ok) (hl : IsLocal text n m v) (ho : n.object? = some o) :
    o ∈ (parse text).nodes ∧ o.kind.isObject ∧ Below (parse text).entries o.id m.id := by
  obtain ⟨hon, hob⟩ := below_of_mem_ancestors hl.node (List.mem_of_find?_eq_some ho)
  have hok : o.kind.isObject := by simpa using List.find?_some ho
  obtain ⟨hm, hmk, hmn⟩ := hl.method
  exact ⟨hon, hok, (below_or_below hon hm hob hmn).resolve_right
    (not_below_method h hm hon hmk hok)⟩

theorem apply_edits? (h : (parse text).ok) (hl : IsLocal text n m v) (he : edits? n = some es) :
    es ≠ [] ∧ Edit.apply es text = .ok (Edit.rewritten es 0 text) := by
  simp only [edits?, Option.bind_eq_bind, Option.bind_eq_some_iff] at he
  obtain ⟨o, ho, he⟩ := he
  split at he
  · cases he
  obtain ⟨e, hd, he⟩ := Option.bind_eq_some_iff.mp he
  cases he
  obtain ⟨hon, hok, hom⟩ := object_above h hl ho
  obtain ⟨hm, hmk, _⟩ := hl.method
  obtain ⟨hv, hvk, hnv⟩ := hl.sect
  have hadd := (Node.beside_declare? hon hd).adds h
  have hle := covers_of_mem_children hm hv
  obtain ⟨q, hq, hmq, hqv⟩ := token_before_section h hm hmk hv hvk
  have hds : ∀ d ∈ [n], d ∈ (parse text).nodes := fun d hd => List.mem_singleton.mp hd ▸ hl.node
  obtain ⟨hcut, hap⟩ := Node.cut_undeclare h hds
  have hcut : ∀ f ∈ Node.undeclare [n], f.Cut text v.span := fun f hf => by
    obtain ⟨d, hd, w, hw, hc⟩ := hcut f hf
    rw [List.mem_singleton.mp hd, hnv] at hw
    cases hw
    exact hc
  refine ⟨by simp, Edit.apply_seams (fun f hf => ?_) (List.pairwise_append.mpr
    ⟨hap, List.pairwise_singleton .., fun f hf g hg => ?_⟩)⟩
  · rcases List.mem_append.mp hf with hf | hf
    · exact ⟨(hcut f hf).le, (hcut f hf).ends⟩
    · obtain rfl := List.mem_singleton.mp hf
      exact ⟨Nat.le_of_eq hadd.1, hadd.2, hadd.1 ▸ hadd.2⟩
  · obtain rfl := List.mem_singleton.mp hg
    refine (hadd.beside (hcut f hf).le _ ?_).symm
    rcases Node.declare?_beside h hon hok hd hm hmk hom hle.2 with hb | hb
    · left
      have := (hcut f hf).le_start hq hqv
      have := Text.start_lt_stop hq
      omega
    · exact .inr (hb f (hcut f hf))

end MoveToGlobal

/-! ## Literals that become labels -/

theorem Pattern.eq_of_mem_tokens {ks : List TokenKind} {w : List Symbol}
    (h : w ∈ (tokens ks).matches') : ∃ k, w = [.token k] := by
  obtain ⟨k, _, rfl⟩ := mem_tokens.mp h
  exact ⟨k, rfl⟩

namespace Label

/-- The only leaf of a literal. -/
theorem exists_leaf (h : (parse text).ok) (hn : n ∈ (parse text).nodes)
    (hk : n.kind = NodeKind.literalExpression) :
    ∃ c ∈ n.leaves, (∀ m ∈ n.leaves, m = c) ∧ c.start = n.start ∧ c.stop = n.stop := by
  obtain ⟨k, hw⟩ := Pattern.eq_of_mem_tokens (matches_of_kind h hn hk)
  obtain ⟨c, hch, hc⟩ := List.map_eq_singleton_iff.mp hw
  have hcn := mem_nodes_of_child hn (hch ▸ List.mem_singleton_self c)
  have hck : c.kind.isToken := by
    rw [← kind_symbol, hc]
    rfl
  have hleaf : ∀ m ∈ n.leaves, m = c := fun m hm => by
    obtain ⟨hm, hmk⟩ := List.mem_filter.mp hm
    obtain ⟨hmn, hb⟩ := (mem_subtree hn).mp hm
    have hmk : m.kind.isToken := (Bool.and_eq_true_iff.mp hmk).1
    have hne : m.id ≠ n.id := id_ne_of_kind (p := Kind.isToken) hmn hn hmk (by rw [hk]; rfl)
    obtain ⟨d, hd, hdm⟩ := exists_child_of_below hn hb hne.symm
    obtain rfl := List.mem_singleton.mp (hch ▸ hd)
    exact (eq_of_below_token h hcn hmn hck hdm).symm
  have hi : n.id ≠ 0 := fun hi => by
    cases hk.symm.trans (kind_root hn hi)
  obtain ⟨f, l, hf, hl, hs, he⟩ := ends_of_ok h hn hi
  have hf := List.mem_of_head? hf
  obtain rfl := hleaf f hf
  obtain rfl := hleaf l (List.mem_of_getLast? hl)
  exact ⟨l, hf, hleaf, hs.symm, he.symm⟩

/-- A literal is one token. -/
theorem exists_token (h : (parse text).ok) (hn : n ∈ (parse text).nodes)
    (hk : n.kind = NodeKind.literalExpression) :
    ∃ q ∈ text.significant, q.start = n.start ∧ q.stop = n.stop := by
  obtain ⟨c, hc, -, hs, he⟩ := exists_leaf h hn hk
  obtain ⟨q, hq, hqs, hqe, _⟩ := SyntaxTree.exists_token hn hc
  exact ⟨q, hq, hqs.trans hs, hqe.trans he⟩

theorem apply_edits? {ctx : Context} (h : (parse text).ok) (hn : n ∈ (parse text).nodes)
    (hk : n.kind = NodeKind.literalExpression) (he : edits? ctx n = some es) :
    es ≠ [] ∧ Edit.apply es text = .ok (Edit.rewritten es 0 text) := by
  simp only [edits?, Option.bind_eq_bind, Option.bind_eq_some_iff] at he
  obtain ⟨m, hm, e, hd, he⟩ := he
  cases he
  have hmn := (below_of_mem_ancestors hn (List.mem_of_find?_eq_some hm)).1
  have hadd := (Node.beside_declare? hmn hd).adds h
  obtain ⟨q, hq, hqs, hqe⟩ := exists_token h hn hk
  have hseam := Text.seam_token (Text.mem_tokens hq)
  rw [hqs, hqe] at hseam
  have hle := (ranged hn).start_le_stop
  refine ⟨by simp, Edit.apply_seams (fun f hf => ?_) (List.pairwise_pair.mpr ?_)⟩
  · rcases List.mem_pair.mp hf with rfl | rfl
    · exact ⟨Nat.le_of_eq hadd.1, hadd.2, hadd.1 ▸ hadd.2⟩
    · exact ⟨hle, hseam⟩
  · -- No insertion goes into a token.
    refine hadd.beside (u := n.span) hle _ ?_
    have := hadd.2.clear q hq
    rw [hqs, hqe] at this
    exact this.symm

end Label

/-! ## Assignments to fields -/

namespace FieldAssignment

theorem apply_edits (h : (parse text).ok) (hn : n ∈ (parse text).nodes) (hi : n.id ≠ 0) (t : Text) :
    Edit.apply [⟨n.span, t⟩] text = .ok (Edit.rewritten [⟨n.span, t⟩] 0 text) := by
  refine Edit.apply_seams (fun f hf => ?_) (List.pairwise_singleton ..)
  obtain rfl := List.mem_singleton.mp hf
  exact ⟨(ranged hn).start_le_stop, (solid h hn hi).seams⟩

end FieldAssignment

end AlRefactor
