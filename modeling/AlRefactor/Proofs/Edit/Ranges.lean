import AlRefactor.Proofs.Edit.Insertion

/-!
# Ranges of nodes and of removals

Whatever is wrong with a text, the ranges of its nodes and all that is worked out from them are ranges
of the text: lines, whole lines, headers, values of properties, and runs of names of a list. None of
them starts or ends within a line break.
-/

namespace AlRefactor

open SyntaxTree

variable {text : Text} {n m v : Node} {doomed : Node → Bool} {ds : List Node} {s : Span}

namespace Node

/-! ## Ranges of nodes -/

section Ranges

variable (hn : n ∈ (parse text).nodes)

include hn

theorem isBoundary_span : n.span.Ends fun p => text.isBoundary p :=
  ⟨(seams hn).1.1.boundary, (seams hn).1.2.boundary⟩

theorem hasAddress_span : text.HasAddress n.span :=
  ⟨(ranged hn).start_le_stop, (addressable hn).1.1, (addressable hn).1.2⟩

theorem hasRange_span : text.HasRange n.span := (hasAddress_span hn).hasRange

theorem hasRange_full : text.HasRange n.full := by
  have hc := (ranged hn).full_covers
  rw [Span.covers, Bool.and_eq_true, decide_eq_true_eq, decide_eq_true_eq] at hc
  have hle : n.full.start ≤ n.full.stop := calc
    n.full.start ≤ n.span.start := hc.1
    _ ≤ n.span.stop := (ranged hn).start_le_stop
    _ ≤ n.full.stop := hc.2
  exact Text.hasRange_iff.mpr ⟨hle, (seams hn).2.1.boundary, (seams hn).2.2.boundary⟩

/-- From one child of a node to the same child or one behind it. -/
theorem hasAddress_between {a b : Node} (ha : a ∈ n.children) (hb : b ∈ n.children)
    (h : a = b ∨ a.stop ≤ b.start) : text.HasAddress ⟨a.start, b.stop⟩ := by
  have ha := hasAddress_span (mem_nodes_of_child hn ha)
  have hb := hasAddress_span (mem_nodes_of_child hn hb)
  refine ⟨?_, ha.start, hb.stop⟩
  rcases h with rfl | h
  · exact ha.ordered
  · exact Nat.le_trans ha.ordered (Nat.le_trans h hb.ordered)

/-- The header of a procedure: from the first child that is no attribute to the return value or the
parameters. -/
theorem hasRange_header {a b : Node}
    (ha : n.children.find? (fun c => !c.is NodeKind.memberAttribute) = some a)
    (hb : (n.child? NodeKind.returnValue).or (n.child? NodeKind.parameterList) = some b) :
    text.HasRange ⟨a.start, b.stop⟩ := by
  obtain ⟨hbn, hbk⟩ : b ∈ n.children ∧ !b.is NodeKind.memberAttribute := by
    rcases Option.or_eq_some_iff.mp hb with hb | ⟨_, hb⟩
    all_goals
      obtain ⟨hbn, hbk⟩ := mem_of_child? hb
      exact ⟨hbn, by rw [Node.is, hbk]; rfl⟩
  refine (hasAddress_between hn (List.mem_of_find?_eq_some ha) hbn ?_).hasRange
  -- No child before the first one that is no attribute can be the last part of the header.
  obtain ⟨_, us, vs, hc, hus⟩ := List.find?_eq_some_iff_append.mp ha
  have hp := (ranged hn).apart
  rw [hc] at hp hbn
  rcases List.mem_append.mp hbn with hm | hm
  · have := hus b hm
    rw [hbk] at this
    cases this
  · rcases List.mem_cons.mp hm with rfl | hm
    · exact .inl rfl
    · exact .inr ((List.pairwise_cons.mp (List.pairwise_append.mp hp).2.1).1 b hm)

/-! ## Removals -/

theorem hasAddress_wholeLines : ∃ w, text.wholeLines? n.span = some w ∧ text.HasAddress w :=
  (hasAddress_span hn).wholeLines

theorem hasAddress_doomedRuns (k : Kind) :
    ∀ r ∈ doomedRuns doomed none (n.childrenOf k), text.HasAddress r := by
  have hm : ∀ m ∈ n.childrenOf k, m ∈ (parse text).nodes := fun m hm =>
    mem_nodes_of_child hn (mem_of_childrenOf hm).1
  have hr := runs_doomedRuns doomed none (n.childrenOf k)
  obtain ⟨hle, _⟩ := hr.pairwise nofun (apart_childrenOf hn k) fun m h =>
    (ranged (hm m h)).start_le_stop
  have he := hr.ends (P := text.Addressable) nofun fun m h => (addressable (hm m h)).1
  exact fun r h => ⟨hle r h, (he r h).1, (he r h).2⟩

theorem hasAddress_delete : text.HasAddress (Edit.delete n.wholeLines).span := by
  obtain ⟨w, hw, hr⟩ := hasAddress_wholeLines hn
  rw [Edit.delete, wholeLines, tree_text hn, hw]
  exact hr

theorem hasAddress_removeFromList : ∀ e ∈ removeFromList doomed n, text.HasAddress e.span := by
  rw [removeFromList]
  split
  · exact List.forall_mem_nil _
  split
  · simpa using hasAddress_delete hn
  · intro e he
    obtain ⟨r, hr, rfl⟩ := List.mem_map.mp he
    exact hasAddress_doomedRuns hn _ r hr

theorem hasAddress_removeFromSection : ∀ e ∈ removeFromSection doomed n, text.HasAddress e.span := by
  rw [removeFromSection_eq]
  split
  · simpa using hasAddress_delete hn
  · intro e he
    obtain ⟨m, hm, he⟩ := List.mem_flatMap.mp he
    have hmn := (of_mem_childNodes hn hm).2.1
    rw [removeFromEntry] at he
    split at he
    · split at he
      · obtain rfl := List.mem_singleton.mp he
        exact hasAddress_delete hmn
      · cases he
    · split at he
      · exact hasAddress_removeFromList hmn e he
      · cases he

end Ranges

/-- Any declarations of a text are removed from parts of it. -/
theorem hasAddress_undeclare (hd : ∀ d ∈ ds, d ∈ (parse text).nodes) :
    ∀ e ∈ undeclare ds, text.HasAddress e.span := by
  intro e he
  obtain ⟨v, hv, he⟩ := List.mem_flatMap.mp ((List.mergeSort_perm ..).mem_iff.mp he)
  obtain ⟨d, hdm, hdv⟩ := List.mem_filterMap.mp ((distinct_spec _).1 v hv)
  exact hasAddress_removeFromSection (of_varSection? (hd d hdm) hdv).1 e he

end Node

end AlRefactor
