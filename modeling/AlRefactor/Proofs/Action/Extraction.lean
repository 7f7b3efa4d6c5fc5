import AlRefactor.Action.Extraction
import AlRefactor.Proofs.Declaration.Placement
import AlRefactor.Proofs.Edit.Removal

/-!
# Moving statements into a procedure

The call takes the place of the statements, the new procedure goes before or behind the old one, and
what moves with the statements is removed between the name of the old procedure and its body. So the
edits are apart, and none of them cuts a token.
-/

namespace AlRefactor

open SyntaxTree

variable {text : Text} {n m o v : Node} {s : Selection} {span : Span}

/-! ## Statements of a selection -/

theorem head?_before_getLast? {ns : List Node} {f l : Node}
    (hp : ns.Pairwise fun a b => a.stop ≤ b.start) (hf : ns.head? = some f)
    (hl : ns.getLast? = some l) : f = l ∨ f.stop ≤ l.start := by
  cases ns with
  | nil => cases hf
  | cons n ns =>
      obtain rfl := Option.some.inj hf
      rcases List.mem_cons.mp (List.mem_of_getLast? hl) with h | h
      · exact .inl h.symm
      · exact .inr ((List.pairwise_cons.mp hp).1 l h)

namespace Selection

/-- A selection consists of the statements of a block that a range touches, which starts with the
first one and ends in the last one. -/
structure Touches (text : Text) (u : Span) (b f l : Node) (s : Selection) : Prop where
  block : b ∈ (parse text).nodes ∧ b.kind = NodeKind.block
  statements : s.statements = b.childNodes.filter fun n => n.kind.isStatement && overlap n.span u
  first : s.statements.head? = some f ∧ u.start = f.start
  last : s.statements.getLast? = some l ∧ u.stop ≤ l.stop
  span : s.span = ⟨f.start, l.stop⟩

theorem exists_touched (hs : Selection.at? (parse text) span = .ok (some s)) :
    ∃ u, touched? (parse text) span = some (u, s) := by
  rw [at?] at hs
  split at hs
  · cases hs
  · rename_i u v hu
    split at hs
    · cases hs
    · split at hs
      · cases hs
        exact ⟨u, hu⟩
      · cases hs

/-- The range a selection is looked for in, without white space, touches statements of a body. -/
theorem of_touched? {u : Span} (h : touched? (parse text) span = some (u, s)) :
    text.trimSpan? span = some u ∧
      ∃ b f l, (∃ m, b.method? = some m) ∧ Touches text u b f l s := by
  simp only [touched?, Option.bind_eq_bind, Option.bind_eq_some_iff] at h
  obtain ⟨v, hv, b, hb, m, hm, f, hf, l, hl, h⟩ := h
  have hbn := (below_of_mem_ancestors (mem_covering v) (List.mem_of_find?_eq_some hb)).1
  split at h
  · cases h
  rename_i he
  obtain ⟨rfl, rfl⟩ := Prod.mk.inj (Option.some.inj h)
  obtain ⟨hus, hul⟩ : f.start = v.start ∧ v.stop ≤ l.stop := by simpa using he
  exact ⟨hv, b, f, l, ⟨m, hm⟩, ⟨hbn, by simpa [Node.is] using List.find?_some hb⟩, rfl,
    ⟨hf, hus.symm⟩, ⟨hl, hul⟩, rfl⟩

theorem exists_touches (hs : Selection.at? (parse text) span = .ok (some s)) :
    ∃ u b f l, Touches text u b f l s := by
  obtain ⟨u, hu⟩ := exists_touched hs
  obtain ⟨_, b, f, l, _, ht⟩ := of_touched? hu
  exact ⟨u, b, f, l, ht⟩

namespace Touches

variable {u : Span} {b f l : Node} (ht : Touches text u b f l s)

include ht

theorem mem_statements (hn : n ∈ s.statements) :
    n ∈ b.children ∧ n.kind.isStatement ∧ overlap n.span u := by
  rw [ht.statements] at hn
  obtain ⟨hn, hk⟩ := List.mem_filter.mp hn
  exact ⟨(List.mem_filter.mp hn).1, by simpa using hk⟩

theorem apart : s.statements.Pairwise fun n m => n.stop ≤ m.start := by
  rw [ht.statements]
  exact (ranged ht.block.1).apart.sublist (List.filter_sublist.trans List.filter_sublist)

end Touches

/-- A selection starts with the first and ends with the last one of some statements of a block. -/
theorem exists_block (hs : Selection.at? (parse text) span = .ok (some s)) :
    ∃ b ∈ (parse text).nodes, ∃ f ∈ b.children, ∃ l ∈ b.children, s.statements.head? = some f ∧
      f.kind.isStatement ∧ s.span = ⟨f.start, l.stop⟩ ∧ (f = l ∨ f.stop ≤ l.start) := by
  obtain ⟨u, b, f, l, ht⟩ := exists_touches hs
  obtain ⟨hf, hfk, _⟩ := ht.mem_statements (List.mem_of_head? ht.first.1)
  obtain ⟨hl, _⟩ := ht.mem_statements (List.mem_of_getLast? ht.last.1)
  exact ⟨b, ht.block.1, f, hf, l, hl, ht.first.1, hfk, ht.span,
    head?_before_getLast? ht.apart ht.first.1 ht.last.1⟩

end Selection

namespace Extraction

theorem node_of_moved {d : Declared} {w : Bool} {x : Variable}
    (h : fate m span d w = .moved x n) : d.node = some n := by
  rw [fate] at h
  split at h
  · split at h
    · cases h
    · cases h
      assumption
  · cases h

theorem local_of_node {d : Declared} (hd : d ∈ declarations m) (hn : d.node = some n) :
    n ∈ m.localDeclarations ∧ d.declared = n.toVariable := by
  simp only [declarations, List.mem_append, List.mem_map, Option.mem_toList, Option.map_eq_some_iff]
    at hd
  rcases hd with (⟨_, _, rfl⟩ | ⟨_, _, rfl⟩) | ⟨k, hk, rfl⟩
  · cases hn
  · cases hn
  · cases hn
    exact ⟨hk, rfl⟩

/-- Only locals move. -/
theorem mem_removed (hn : n ∈ (plan m s).removed) : n ∈ m.localDeclarations := by
  obtain ⟨f, hf, hfn⟩ := List.mem_filterMap.mp hn
  obtain ⟨⟨i, w⟩, _, hf⟩ := List.mem_filterMap.mp hf
  obtain ⟨d, hd, rfl⟩ := Option.map_eq_some_iff.mp hf
  split at hfn
  · cases hfn
  · cases hfn
    exact (local_of_node (List.mem_of_getElem? hd) (node_of_moved ‹_›)).1

theorem varSection?_of_local (hm : m ∈ (parse text).nodes) (hn : n ∈ m.localDeclarations) :
    n ∈ (parse text).nodes ∧
      ∃ v ∈ m.children, n.varSection? = some v ∧ v.kind = NodeKind.varSection := by
  rw [Node.localDeclarations] at hn
  cases hv : m.child? NodeKind.varSection with
  | none => rw [hv] at hn; cases hn
  | some v =>
      rw [hv] at hn
      obtain ⟨hvm, hvk⟩ := Node.mem_of_child? hv
      have hvn := mem_nodes_of_child hm hvm
      have hva : v.ancestors = v :: m.ancestors := ancestors_of_mem_children hm hvm
      obtain ⟨c, hc, hn⟩ := List.mem_flatMap.mp hn
      have hc : c ∈ v.children := (List.mem_filter.mp hc).1
      have hcn := mem_nodes_of_child hvn hc
      have hca : c.ancestors = c :: v.ancestors := ancestors_of_mem_children hvn hc
      have hfind : ∀ {ns : List Node}, (v :: ns).find? (·.kind.isVarSection) = some v := by
        simp [hvk, Kind.isVarSection, Kind.isNodeOf, NodeKind.isVarSection]
      have hskip : ∀ {k : NodeKind} {a : Node} {ns : List Node}, a.is k → k.isVarSection = false →
          (a :: ns).find? (·.kind.isVarSection) = ns.find? (·.kind.isVarSection) := by
        intro k a ns ha hk
        have ha : a.kind = k := by simpa [Node.is] using ha
        simp [ha, Kind.isVarSection, Kind.isNodeOf, hk]
      split at hn
      · obtain rfl := List.mem_singleton.mp hn
        exact ⟨hcn, v, hvm, by rw [Node.varSection?, hca, hva, hskip ‹_› rfl, hfind], hvk⟩
      · split at hn
        · obtain ⟨hn, hnk⟩ := List.mem_filter.mp hn
          refine ⟨mem_nodes_of_child hcn hn, v, hvm, ?_, hvk⟩
          rw [Node.varSection?, ancestors_of_mem_children hcn hn, hca, hva, hskip hnk rfl,
            hskip ‹_› rfl, hfind]
        · cases hn

theorem nodes_of_removed (hm : m ∈ (parse text).nodes) (hn : n ∈ (plan m s).removed) :
    n ∈ (parse text).nodes := (varSection?_of_local hm (mem_removed hn)).1

/-! ## Edits of an extraction -/

/-- Where the statements of a selection stand in a procedure: behind its variables. -/
structure Inside (text : Text) (m : Node) (s : Span) : Prop where
  solid : text.Solid s
  covers : m.start ≤ s.start ∧ s.stop ≤ m.stop
  behind : ∀ v ∈ m.children, v.kind = NodeKind.varSection → v.stop ≤ s.start

theorem inside_method (h : (parse text).ok) (hs : Selection.at? (parse text) span = .ok (some s))
    (hm : s.statements.head?.bind (·.method?) = some m) :
    m ∈ (parse text).nodes ∧ m.kind.isMethod ∧ Inside text m s.span ∧
      ∃ c ∈ m.children, c.kind = NodeKind.block := by
  obtain ⟨b, hbn, f, hf, l, hl, hh, hfk, hsp, hfl⟩ := Selection.exists_block hs
  rw [hh, Option.bind_some] at hm
  have hfn := mem_nodes_of_child hbn hf
  obtain ⟨hmn, hmf⟩ := below_of_mem_ancestors hfn (List.mem_of_find?_eq_some hm)
  have hmk : m.kind.isMethod := by simpa using List.find?_some hm
  have hne : m.id ≠ f.id := id_ne_of_kind (p := Kind.isMethod) hmn hfn hmk (Kind.of_isStatement hfk).2.1
  obtain ⟨c, hc, hck, hcf⟩ := exists_block_of_below h hmn hmk hfn hfk hmf
  have hfs := solid_of_mem_children h hbn hf
  have hls := solid_of_mem_children h hbn hl
  have hle : f.stop ≤ l.stop ∧ f.start ≤ l.start := by
    rcases hfl with rfl | hfl
    · exact ⟨Nat.le_refl _, Nat.le_refl _⟩
    · exact ⟨Nat.le_trans hfl (Nat.le_of_lt hls.start_lt_stop),
        Nat.le_trans (Nat.le_of_lt hfs.start_lt_stop) hfl⟩
  refine ⟨hmn, hmk, ?_, c, hc, hck⟩
  rw [hsp]
  refine ⟨⟨?_, ?_⟩, ⟨(covers_of_below hmn hfn hmf).1, ?_⟩, fun v hv hvk => ?_⟩
  · obtain ⟨p, hp, hps, hpe⟩ := hfs.first
    exact ⟨p, hp, hps, Nat.le_trans hpe hle.1⟩
  · obtain ⟨p, hp, hps, hpe⟩ := hls.last
    exact ⟨p, hp, Nat.le_trans hle.2 hps, hpe⟩
  · have hmb := below_of_below_child hmn hbn hf hmf hne
    exact Nat.le_trans (covers_of_mem_children hbn hl).2 (covers_of_below hmn hbn hmb).2
  · exact Nat.le_trans (section_before_block h hmn hmk hv hvk hc hck)
      (covers_of_below (mem_nodes_of_child hmn hc) hfn hcf).1

/-- The edits of an extraction do not reach into each other, and their ends lie between tokens. -/
theorem edits?_apart {ctx : Context} {name : Text} {es : List Edit} (h : (parse text).ok)
    (hc : ctx.config.findNewProcedureLocation = .afterCurrent)
    (hs : Selection.at? (parse text) span = .ok (some s))
    (hm : s.statements.head?.bind (·.method?) = some m) (ho : m.object? = some o)
    (he : edits? ctx (parse text) m o s name = some es) :
    (∀ e ∈ es, e.span.start ≤ e.span.stop ∧ e.span.Ends text.Seam) ∧ es.Pairwise Edit.Apart := by
  obtain ⟨hmn, hmk, hin, c, hc', hck⟩ := inside_method h hs hm
  obtain ⟨hon, hom⟩ := below_of_mem_ancestors hmn (List.mem_of_find?_eq_some ho)
  obtain ⟨d, hd, rfl⟩ := Option.map_eq_some_iff.mp he
  rw [hc] at hd
  obtain ⟨hde, hds, hdm⟩ := Placement.insert?_beside h hon hmn hom hmk hd
  obtain ⟨hcut, hap⟩ := Node.cut_undeclare h fun n hn => nodes_of_removed (n := n) hmn hn
  have hlt := hin.solid.start_lt_stop
  -- What is removed stands between the name of the procedure and the statements.
  have hrem : ∀ e ∈ Node.undeclare (plan m s).removed, m.start ≤ e.span.start ∧
      e.span.stop ≤ s.span.start ∧ e.span.start ≤ e.span.stop ∧ e.span.Ends text.Seam := by
    intro e hm
    obtain ⟨n, hn, v, hv, hcut⟩ := hcut e hm
    obtain ⟨_, w, hw, hnw, hwk⟩ := varSection?_of_local hmn (mem_removed hn)
    obtain rfl := Option.some.inj (hnw.symm.trans hv)
    obtain ⟨p, hp, hmp, hpw⟩ := token_before_section h hmn hmk hw hwk
    refine ⟨?_, ?_, hcut.le, hcut.ends⟩
    · have := Text.start_lt_stop hp
      have := hcut.le_start hp hpw
      omega
    · exact hcut.stop_le (.of_solid hin.solid []) (hin.behind w hw hwk)
  refine ⟨fun e hm => ?_, ?_⟩
  · rcases List.mem_append.mp hm with hm | hm
    · rcases List.mem_pair.mp hm with rfl | rfl
      · exact ⟨Nat.le_of_lt hlt, hin.solid.seams⟩
      · exact ⟨Nat.le_of_eq hde, hds, hde ▸ hds⟩
    · exact (hrem e hm).2.2
  · have hcov := hin.covers
    refine List.pairwise_append.mpr ⟨List.pairwise_pair.mpr ?_, hap, fun e hm f hf => ?_⟩
    · rcases hdm with hdm | hdm
      · exact (Edit.Apart.of_le (by omega) (by dsimp only; omega) (by dsimp only; omega)).symm
      · exact .of_le (by dsimp only; omega) (by omega) (by dsimp only; omega)
    · obtain ⟨hmf, hfs, hfl, _⟩ := hrem f hf
      rcases List.mem_pair.mp hm with rfl | rfl
      · exact (Edit.Apart.of_le hfl (by dsimp only; omega) hfs).symm
      · rcases hdm with hdm | hdm
        · exact .of_le (by omega) hfl (by omega)
        · exact (Edit.Apart.of_le hfl (by omega) (by omega)).symm

/-- What an extraction that succeeds has found, and the change it makes. -/
theorem exists_of_extract? {ctx : Context} {document : Nat} {t : SyntaxTree} {r : ActionResult}
    {w w' : Progress} (hr : (extract? ctx document t span).run.run w = (.ok (some r), w')) :
    ∃ s m o name es, Selection.at? t span = .ok (some s) ∧
      s.statements.head?.bind (·.method?) = some m ∧ m.object? = some o ∧
      edits? ctx t m o s name = some es ∧ r.change = Change.ofEdits document es := by
  obtain ⟨s, _, hs, hr⟩ := Refactoring.exists_of_bind hr
  cases hat : Selection.at? t span with
  | error => rw [hat] at hs; cases hs
  | ok _ =>
      rw [hat] at hs
      cases hs
      cases s with
      | none => cases hr
      | some s =>
          dsimp only at hr
          split at hr
          · rename_i m o hm ho
            split at hr
            · cases hr
            · obtain ⟨_, _, _, hr⟩ := Refactoring.exists_of_bind hr
              obtain ⟨name, _, _, hr⟩ := Refactoring.exists_of_bind hr
              cases he : edits? ctx t m o s name with
              | none => rw [he] at hr; cases hr
              | some es =>
                  rw [he] at hr
                  cases hr
                  rw [hm, Option.bind_some] at ho
                  exact ⟨s, m, o, name, es, rfl, hm, ho, he, rfl⟩
          · cases hr

/-- Where nothing is wrong with a text, an extraction changes this text alone, its edits can be
carried out, and none of them cuts a token. -/
theorem apply_extract? {ctx : Context} {document : Nat} {r : ActionResult} {w : Progress}
    (h : (parse text).ok) (hc : ctx.config.findNewProcedureLocation = .afterCurrent)
    (hr : ((extract? ctx document (parse text) span).run.run w).1 = .ok (some r)) :
    ∃ es, r.change = Change.ofEdits document es ∧ r.change.editsOf document = es ∧
      Edit.apply es text = .ok (Edit.rewritten es 0 text) ∧
      ∀ e ∈ es, ∀ p ∈ text.significant, p.stop ≤ e.span.start ∨ e.span.stop ≤ p.start ∨
        e.span.start ≤ p.start ∧ p.stop ≤ e.span.stop := by
  obtain ⟨s, m, o, name, es, hs, hm, ho, he, hre⟩ := exists_of_extract? (Prod.ext hr rfl)
  obtain ⟨hes, ha⟩ := edits?_apart h hc hs hm ho he
  refine ⟨es, hre, ?_, Edit.apply_seams hes ha, fun e he p hp => ?_⟩
  · rw [hre, Change.editsOf_ofEdits]
  · have := (hes e he).2.1.clear p hp
    have := (hes e he).2.2.clear p hp
    omega

theorem eq_ok_of_toOption {ε α : Type} {x : Except ε α} {a : α} (h : x.toOption = some a) :
    x = .ok a := by
  cases x with
  | error => cases h
  | ok => exact congrArg Except.ok (Option.some.inj h)

/-- The statement `b := 1;` moves with the local that only it uses. -/
theorem apply_extract?_local :
    let text : Text := "codeunit 1 A \x7b procedure P() var b: Integer; begin b := 1; end; \x7d"
    let ctx : Context := ⟨.empty, .standard, .unknown⟩
    let es : List Edit := [⟨⟨51, 58⟩, "NewProcedure();"⟩, Edit.insert 64
      "\nlocal procedure NewProcedure()\nvar\n    b: Integer;\nbegin\n    b := 1;\nend;\n",
      Edit.delete ⟨29, 44⟩]
    (parse text).ok ∧
      ((extract? ctx 0 (parse text) ⟨51, 57⟩).run.run ⟨.empty, .start .silent⟩).1 =
        .ok (some ⟨Change.ofEdits 0 es, some (0, 36)⟩) ∧
      Edit.apply es text = .ok (Edit.rewritten es 0 text) := by
  intro text ctx es
  have h : (parse text).ok := by decide +kernel
  have hr := eq_ok_of_toOption (x := ((extract? ctx 0 (parse text) ⟨51, 57⟩).run.run
    ⟨.empty, .start .silent⟩).1) (a := some ⟨Change.ofEdits 0 es, some (0, 36)⟩) (by decide +kernel)
  obtain ⟨fs, _, hfs, ha, _⟩ := apply_extract? h rfl hr
  obtain rfl : es = fs := hfs
  exact ⟨h, hr, ha⟩

/-- No blank is needed between `begin` and a quoted name, but one is between `begin` and the call:
the two become one word, and the new text has a syntax error. -/
theorem extract?_merges :
    let text : Text := "codeunit 1 A \x7b procedure P() begin\"x\" := 1; end; \x7d"
    let ctx : Context := ⟨.empty, .standard, .unknown⟩
    let es : List Edit := [⟨⟨34, 43⟩, "NewProcedure();"⟩, Edit.insert 49
      "\nlocal procedure NewProcedure()\nbegin\n    \"x\" := 1;\nend;\n"]
    (parse text).ok ∧
      ((extract? ctx 0 (parse text) ⟨34, 43⟩).run.run ⟨.empty, .start .silent⟩).1 =
        .ok (some ⟨Change.ofEdits 0 es, some (0, 34)⟩) ∧
      ∃ t, Edit.apply es text = .ok t ∧ (parse t).ok = false := by
  intro text ctx es
  have ha : Edit.apply es text = .ok (Edit.rewritten es 0 text) :=
    Edit.apply_apart (by decide) (by decide) (by decide)
  exact ⟨by decide +kernel, eq_ok_of_toOption (by decide +kernel), _, ha, by decide +kernel⟩

end Extraction

end AlRefactor
