import AlRefactor.Proofs.Edit.Removal

/-!
# What removals take away

The deletions for some declarations cover each of them, cover a section that loses all of its
declarations, and leave alone what declares the others and what stands outside of the sections.
-/

namespace AlRefactor.Node

open SyntaxTree

variable {text : Text} {doomed : Node → Bool} {n v d l : Node} {ds : List Node}

/-! ## Covered declarations -/

theorem covers_wholeLines (hn : n ∈ (parse text).nodes) :
    n.wholeLines.start ≤ n.start ∧ n.stop ≤ n.wholeLines.stop := by
  have hs := (seams hn).1
  obtain ⟨w, hw, hwide⟩ := Text.widened_wholeLines hs.1.boundary hs.2.boundary
  rw [wholeLines, tree_text hn, hw]
  exact ⟨hwide.bare_start.le, hwide.bare_stop.le⟩

/-- Every doomed name lies in the range of a run. -/
theorem Runs.covers {before : Option Node} {ns : List Node} {rs : List Span}
    (h : Runs doomed before ns rs) (hb : ∀ b ∈ before, ∀ n ∈ ns, b.stop ≤ n.start)
    (hn : ns.Pairwise fun n m => n.stop ≤ m.start) (hle : ∀ n ∈ ns, n.start ≤ n.stop) :
    ∀ d ∈ ns, doomed d → ∃ r ∈ rs, r.start ≤ d.start ∧ d.stop ≤ r.stop := by
  induction h with
  | nil => nofun
  | kept hd _ ih =>
      obtain ⟨hn, hns⟩ := List.pairwise_cons.mp hn
      intro d hdn hdd
      rcases List.mem_cons.mp hdn with rfl | hdn
      · exact absurd hdd (by simp [hd])
      · exact ih (fun b hb m hm => by cases hb; exact hn m hm) hns
          (fun m hm => hle m (List.mem_cons_of_mem _ hm)) d hdn hdd
  | @run before n ns us last rest r rs _ he _ hs hp _ ih =>
      have hstart : ∀ m ∈ n :: ns, r.start ≤ m.start := fun m hm => by
        rcases hs with hs | ⟨b, hbm, hs⟩
        · rcases List.mem_cons.mp hm with rfl | hm
          · exact Nat.le_of_eq hs
          · have := (List.pairwise_cons.mp hn).1 m hm
            have := hle n (List.mem_cons_self ..)
            omega
        · exact hs ▸ hb b hbm m hm
      rw [he] at hn hle hstart ⊢
      obtain ⟨-, hlast, hul⟩ := List.pairwise_append.mp hn
      obtain ⟨hlr, hrest⟩ := List.pairwise_cons.mp hlast
      have hlast := hle last (by simp)
      have hstop : last.stop ≤ r.stop := by
        rcases hp with hp | ⟨m, ms, rfl, _, hp⟩
        · exact Nat.le_of_eq hp.symm
        · exact hp ▸ hlr m (List.mem_cons_self ..)
      intro d hdn hdd
      rcases List.mem_append.mp hdn with hdu | hdl
      · have := hul d hdu last (List.mem_cons_self ..)
        exact ⟨r, List.mem_cons_self .., hstart d hdn, by omega⟩
      · rcases List.mem_cons.mp hdl with rfl | hdr
        · exact ⟨r, List.mem_cons_self .., hstart d hdn, hstop⟩
        · obtain ⟨q, hq, hc⟩ := ih (fun b hb m hm => by cases hb; exact hlr m hm) hrest
            (fun m hm => hle m (List.mem_append_right _ (List.mem_cons_of_mem _ hm))) d hdr hdd
          exact ⟨q, List.mem_cons_of_mem _ hq, hc⟩

theorem covers_removeFromList (hl : l ∈ (parse text).nodes)
    (hd : d ∈ l.childrenOf NodeKind.variableDeclarationName) (hdd : doomed d) :
    ∃ e ∈ removeFromList doomed l, e.span.start ≤ d.start ∧ d.stop ≤ e.span.stop := by
  have hdl := (mem_of_childrenOf hd).1
  rw [removeFromList, if_neg (by simpa using ⟨d, hd, hdd⟩)]
  split
  · have hcov := covers_of_mem_children hl hdl
    have hw := covers_wholeLines hl
    exact ⟨_, List.mem_singleton_self _, Nat.le_trans hw.1 hcov.1, Nat.le_trans hcov.2 hw.2⟩
  · obtain ⟨r, hr, hc⟩ := (runs_doomedRuns doomed none _).covers (fun b hb => absurd hb (by simp))
      (apart_childrenOf hl _)
      (fun m hm => (ranged (mem_nodes_of_child hl (mem_of_childrenOf hm).1)).start_le_stop) d hd hdd
    exact ⟨_, List.mem_map_of_mem hr, hc⟩

variable (doomed) in
/-- A section that loses all of its declarations is covered as a whole. -/
theorem covers_section (hv : v ∈ (parse text).nodes) (hall : v.sectionDeclarations.all doomed) :
    ∃ e ∈ removeFromSection doomed v, e.span.start ≤ v.start ∧ v.stop ≤ e.span.stop := by
  rw [removeFromSection_eq, if_pos hall]
  exact ⟨_, List.mem_singleton_self _, covers_wholeLines hv⟩

variable (doomed) in
theorem covers_removeFromSection (hv : v ∈ (parse text).nodes) (hd : d ∈ v.sectionDeclarations)
    (hdd : doomed d) :
    ∃ e ∈ removeFromSection doomed v, e.span.start ≤ d.start ∧ d.stop ≤ e.span.stop := by
  obtain ⟨c, hc, hdc⟩ := mem_sectionDeclarations.mp hd
  have hcv := mem_of_childNodes hc
  have hcn := mem_nodes_of_child hv hcv
  by_cases hall : v.sectionDeclarations.all doomed
  · obtain ⟨e, he, hs⟩ := covers_section doomed hv hall
    have hcov := covers_of_mem_children hv hcv
    have hdcov : c.start ≤ d.start ∧ d.stop ≤ c.stop := by
      rcases hdc with ⟨_, rfl⟩ | ⟨_, hd⟩
      · exact ⟨Nat.le_refl _, Nat.le_refl _⟩
      · exact covers_of_mem_children hcn (mem_of_childrenOf hd).1
    exact ⟨e, he, by omega, by omega⟩
  · rw [removeFromSection_eq, if_neg hall]
    suffices ∃ e ∈ removeFromEntry doomed c, e.span.start ≤ d.start ∧ d.stop ≤ e.span.stop by
      obtain ⟨e, he, hs⟩ := this
      exact ⟨e, List.mem_flatMap.mpr ⟨c, hc, he⟩, hs⟩
    rcases hdc with ⟨hk, rfl⟩ | ⟨hk, hd⟩
    · rw [removeFromEntry, if_pos (by simp [is, hk]), if_pos hdd]
      exact ⟨_, List.mem_singleton_self _, covers_wholeLines hcn⟩
    · rw [removeFromEntry, if_neg (by simp [is, hk]), if_pos (by simp [is, hk])]
      exact covers_removeFromList hcn hd hdd

/-! ## Sections of declarations -/

/-- The section of its declarations is the section around each of them. -/
theorem varSection?_of_mem (hv : v ∈ (parse text).nodes) (hk : v.kind.isVarSection)
    (hd : d ∈ v.sectionDeclarations) : d.varSection? = some v := by
  have hself : v.varSection? = some v := by
    rw [varSection?, ancestors, List.find?_cons, hk]
  have hup {a c : Node} (ha : a ∈ (parse text).nodes) (hc : c ∈ a.children)
      (hck : c.kind.isVarSection = false) : c.varSection? = a.varSection? := by
    rw [varSection?, ancestors_of_mem_children ha hc, List.find?_cons, hck, varSection?]
  obtain ⟨c, hc, hdc⟩ := mem_sectionDeclarations.mp hd
  have hcv := mem_of_childNodes hc
  rcases hdc with ⟨hck, rfl⟩ | ⟨hck, hd⟩
  · rw [hup hv hcv (by rw [hck]; rfl), hself]
  · obtain ⟨hdc, hdk⟩ := mem_of_childrenOf hd
    rw [hup (mem_nodes_of_child hv hcv) hdc (by rw [hdk]; rfl), hup hv hcv (by rw [hck]; rfl), hself]

/-- Of every node there is one among the distinct ones. -/
theorem exists_mem_distinct {ns : List Node} (hn : n ∈ ns) : ∃ m ∈ distinct ns, m.id = n.id := by
  have hkeep (seen : List Node) (ns : List Node) : ∀ m ∈ seen,
      m ∈ ns.foldl (fun seen n => if seen.any (·.same n) then seen else seen ++ [n]) seen := by
    induction ns generalizing seen with
    | nil => exact fun m hm => hm
    | cons a ns ih =>
        intro m hm
        refine ih _ m ?_
        dsimp only
        split
        · exact hm
        · exact List.mem_append_left _ hm
  obtain ⟨as, bs, rfl⟩ := List.append_of_mem hn
  rw [distinct, List.foldl_append, List.foldl_cons]
  generalize as.foldl (fun seen n => if seen.any (·.same n) then seen else seen ++ [n]) [] = seen
  split
  · rename_i hs
    obtain ⟨m, hm, hmn⟩ := List.any_eq_true.mp hs
    exact ⟨m, hkeep seen bs m hm, by simpa [same] using hmn⟩
  · exact ⟨n, hkeep _ bs n (by simp), rfl⟩

/-- The deletions in the section of a doomed declaration are among all of them. -/
theorem removeFromSection_subset (hds : ∀ n ∈ ds, n ∈ (parse text).nodes)
    (hv : v ∈ (parse text).nodes) (hd : d ∈ ds) (hdv : d.varSection? = some v) :
    ∀ e ∈ removeFromSection (fun m => ds.any (·.same m)) v, e ∈ undeclare ds := by
  intro e he
  obtain ⟨w, hw, hwv⟩ := exists_mem_distinct (List.mem_filterMap.mpr ⟨d, hd, hdv⟩)
  obtain ⟨c, hc, hcw⟩ := List.mem_filterMap.mp ((distinct_spec _).1 w hw)
  obtain ⟨hwn, -⟩ := of_varSection? (hds c hc) hcw
  obtain rfl := eq_of_id hwn hv hwv
  exact (List.mergeSort_perm ..).mem_iff.mpr (List.mem_flatMap.mpr ⟨w, hw, he⟩)

theorem text_removeFromSection : ∀ e ∈ removeFromSection doomed v, e.text = [] := by
  have hlist (l : Node) : ∀ e ∈ removeFromList doomed l, e.text = [] := by
    intro e he
    rw [removeFromList] at he
    split at he
    · exact absurd he List.not_mem_nil
    · split at he
      · rw [List.mem_singleton.mp he]
        rfl
      · obtain ⟨r, _, rfl⟩ := List.mem_map.mp he
        rfl
  intro e he
  rw [removeFromSection_eq] at he
  split at he
  · rw [List.mem_singleton.mp he]
    rfl
  · obtain ⟨c, _, he⟩ := List.mem_flatMap.mp he
    rw [removeFromEntry] at he
    split at he
    · split at he
      · rw [List.mem_singleton.mp he]
        rfl
      · exact absurd he List.not_mem_nil
    · split at he
      · exact hlist c e he
      · exact absurd he List.not_mem_nil

/-! ## Removals -/

/-- The edits delete some declarations: they fit the text, each deletes a part of the section of one of
them or this part widened to whole lines, and they cover all of them, and a section as a whole that is
left by all of its declarations. They do not reach into what declares any other variable. -/
structure Removes (text : Text) (ds : List Node) (es : List Edit) : Prop where
  applies : Edit.apply es text = .ok (Edit.rewritten es 0 text)
  deletes : ∀ e ∈ es, e.text = [] ∧ ∃ d ∈ ds, ∃ v, d.varSection? = some v ∧ e.Cut text v.span
  covers : ∀ v ∈ (parse text).nodes, v.kind.isVarSection → ∀ d ∈ v.sectionDeclarations, d ∈ ds →
    ∃ e ∈ es, e.span.start ≤ d.start ∧ d.stop ≤ e.span.stop
  sections : ∀ v ∈ (parse text).nodes, v.kind.isVarSection → v.sectionDeclarations ≠ [] →
    (∀ d ∈ v.sectionDeclarations, d ∈ ds) → ∃ e ∈ es, e.span.start ≤ v.start ∧ v.stop ≤ e.span.stop
  keeps : ∀ v ∈ (parse text).nodes, v.kind.isVarSection → ∀ d ∈ v.sectionDeclarations, d ∉ ds →
    ∀ p, Declares v d p → ∀ e ∈ es, e.span.stop ≤ p.start ∨ p.stop ≤ e.span.start

theorem removes_undeclare (h : (parse text).ok) (hds : ∀ n ∈ ds, n ∈ (parse text).nodes) :
    Removes text ds (undeclare ds) where
  applies := apply_undeclare h hds
  deletes e he := by
    obtain ⟨v, _, hv⟩ := List.mem_flatMap.mp ((List.mergeSort_perm ..).mem_iff.mp he)
    exact ⟨text_removeFromSection e hv, (cut_undeclare h hds).1 e he⟩
  covers v hv hk d hd hdd := by
    obtain ⟨e, he, hs⟩ := covers_removeFromSection (fun m => ds.any (·.same m)) hv hd
      (List.any_eq_true.mpr ⟨d, hdd, by simp [same]⟩)
    exact ⟨e, removeFromSection_subset hds hv hdd (varSection?_of_mem hv hk hd) e he, hs⟩
  sections v hv hk hne hall := by
    obtain ⟨d, hd⟩ := List.exists_mem_of_ne_nil _ hne
    obtain ⟨e, he, hs⟩ := covers_section (fun m => ds.any (·.same m)) hv
      (List.all_eq_true.mpr fun c hc => List.any_eq_true.mpr ⟨c, hall c hc, by simp [same]⟩)
    exact ⟨e, removeFromSection_subset hds hv (hall d hd) (varSection?_of_mem hv hk hd) e he, hs⟩
  keeps v hv hk d hd hdd p hp := by
    refine keeps_undeclare h hds hv hk hd (fun n hn hi => hdd ?_) hp
    have hdn : d ∈ (parse text).nodes := by
      obtain ⟨c, hc, hdc⟩ := mem_sectionDeclarations.mp hd
      have hcn := mem_nodes_of_child hv (mem_of_childNodes hc)
      rcases hdc with ⟨_, rfl⟩ | ⟨_, hd⟩
      · exact hcn
      · exact mem_nodes_of_child hcn (mem_of_childrenOf hd).1
    rwa [← eq_of_id (hds n hn) hdn hi]

/-- Nothing is put in the place of what is removed, so the tokens beside it may become one: here the word
that opens the section and the name of the next variable. -/
theorem undeclare_merges :
    let text : Text := "codeunit 1 A \x7b var\"a\":Integer;b:Integer; \x7d"
    (parse text).ok ∧ ∃ d ∈ (parse text).nodes, d.name = some "\"a\"".toList ∧
      undeclare [d] = [Edit.delete ⟨18, 30⟩] ∧
      ∃ t, Edit.apply [Edit.delete ⟨18, 30⟩] text = .ok t ∧
        t = "codeunit 1 A \x7b varb:Integer; \x7d".toList ∧ (parse t).ok = false := by
  intro text
  have hd : (parse text).ok ∧ ∃ d ∈ (parse text).nodes, d.name = some "\"a\"".toList ∧
      undeclare [d] = [Edit.delete ⟨18, 30⟩] := by decide +kernel
  have ha : Edit.apply [Edit.delete ⟨18, 30⟩] text =
      .ok (Edit.rewritten [Edit.delete ⟨18, 30⟩] 0 text) :=
    Edit.apply_apart (by decide) (by decide) (by decide)
  obtain ⟨hok, d, hd⟩ := hd
  exact ⟨hok, d, hd.1, hd.2.1, hd.2.2, _, ha, by decide +kernel⟩

end AlRefactor.Node
