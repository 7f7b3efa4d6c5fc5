import AlRefactor.Edit.VarSection
import AlRefactor.Proofs.Edit.Batch
import AlRefactor.Proofs.Syntax.Sections
import AlRefactor.Proofs.Syntax.Shape

/-!
# Removals do not reach into each other

Every deletion is a part of a declaration or of a section of variables, or one of these widened to
whole lines. Declarations that are apart stay apart when they are widened, as long as each of them ends
with a token of its own. Where nothing is wrong with a text, all of them do.
-/

namespace AlRefactor

/-! ## Edits of parts of a range -/

/-- The edit is of a part of a range that starts and ends with tokens, or of such a part widened to
whole lines. -/
def Edit.Cut (text : Text) (s : Span) (e : Edit) : Prop :=
  ∃ u, text.Solid u ∧ s.start ≤ u.start ∧ u.stop ≤ s.stop ∧ text.Within u e.span

namespace Edit

variable {text : Text} {s s' : Span} {e e' : Edit}

theorem Apart.of_le (h : e.span.start ≤ e.span.stop) (h' : e'.span.start ≤ e'.span.stop)
    (hle : e.span.stop ≤ e'.span.start) : e.Apart e' :=
  (apart_iff (le_iff.mpr (by omega))).mpr hle

/-- Edits that end between tokens and do not reach into each other can be carried out. -/
theorem apply_seams {es : List Edit}
    (hs : ∀ e ∈ es, e.span.start ≤ e.span.stop ∧ e.span.Ends text.Seam) (ha : es.Pairwise Apart) :
    apply es text = .ok (rewritten es 0 text) := by
  refine apply_apart (fun e he => ?_) (fun e he => ?_) ha
  · obtain ⟨hle, hstart, hstop⟩ := hs e he
    refine ⟨hle, fun n hn _ => ?_⟩
    rcases List.mem_pair.mp hn with rfl | rfl
    · exact hstart.boundary
    · exact hstop.boundary
  · exact Text.le_size_of_isBoundary (hs e he).2.2.boundary

namespace Cut

theorem le (h : e.Cut text s) : e.span.start ≤ e.span.stop := by
  obtain ⟨_, _, _, _, hw⟩ := h
  exact hw.le

theorem ends (h : e.Cut text s) : e.span.Ends text.Seam := by
  obtain ⟨_, _, _, _, hw⟩ := h
  exact hw.seams

theorem mono (h : e.Cut text s) (hs : s'.start ≤ s.start) (he : s.stop ≤ s'.stop) :
    e.Cut text s' := by
  obtain ⟨u, hu, hus, hue, hw⟩ := h
  exact ⟨u, hu, Nat.le_trans hs hus, Nat.le_trans hue he, hw⟩

/-- Edits of parts of ranges that are apart are apart. -/
theorem stop_le (h : e.Cut text s) (h' : e'.Cut text s') (hle : s.stop ≤ s'.start) :
    e.span.stop ≤ e'.span.start := by
  obtain ⟨u, hu, _, hue, hw⟩ := h
  obtain ⟨u', hu', hus', _, hw'⟩ := h'
  exact hw.apart hw' hu hu' (by omega)

theorem of_solid (h : text.Solid s) (t : Text) : Cut text s ⟨s, t⟩ :=
  ⟨s, h, Nat.le_refl _, Nat.le_refl _, Nat.le_of_lt h.start_lt_stop, h.seams,
    .inr ⟨Nat.le_refl _, Nat.le_refl _⟩⟩

/-- What is apart from the range is apart from the edit. -/
theorem beside {u : Span} (h : e.Cut text s) (hu : text.Solid u)
    (ha : s.stop ≤ u.start ∨ u.stop ≤ s.start) :
    e.span.stop ≤ u.start ∨ u.stop ≤ e.span.start :=
  ha.imp (h.stop_le (of_solid hu [])) ((of_solid hu []).stop_le h)

/-- A token before the range stands before the edit. -/
theorem le_start {p : Token} (h : e.Cut text s) (hp : p ∈ text.significant)
    (hle : p.stop ≤ s.start) : p.stop ≤ e.span.start := by
  obtain ⟨u, _, hus, _, hw⟩ := h
  exact hw.stop_le hp (Nat.le_trans hle hus)

end Cut

end Edit

namespace Node

variable {text : Text} {n m v : Node} {ds : List Node}

open SyntaxTree

theorem cut_wholeLines (hn : n ∈ (parse text).nodes) (hs : text.Solid n.span) :
    (Edit.delete n.wholeLines).Cut text n.span := by
  obtain ⟨w, hw, hwide⟩ := Text.widened_wholeLines hs.seams.1.boundary hs.seams.2.boundary
  refine ⟨n.span, hs, Nat.le_refl _, Nat.le_refl _, ?_⟩
  rw [Edit.delete, wholeLines, tree_text hn, hw]
  exact hwide.within hs

/-! ## Names of lists -/

/-- Ranges of runs of doomed names, behind a name that is kept or cut before them. A range ends with
its last name or, with the comma behind that, where the name that is kept next starts. -/
inductive Runs (doomed : Node → Bool) : Option Node → List Node → List Span → Prop where
  | nil {before} : Runs doomed before [] []
  | kept {before n ns rs} : doomed n = false → Runs doomed (some n) ns rs →
      Runs doomed before (n :: ns) rs
  | run {before n ns us last rest r rs} : doomed n → n :: ns = us ++ last :: rest →
      (∀ m ∈ us ++ [last], doomed m) →
      (r.start = n.start ∨ ∃ b ∈ before, r.start = b.stop) →
      (r.stop = last.stop ∨ ∃ m ms, rest = m :: ms ∧ doomed m = false ∧ r.stop = m.start) →
      Runs doomed (some last) rest rs → Runs doomed before (n :: ns) (r :: rs)

theorem runs_doomedRuns (doomed : Node → Bool) (before : Option Node) (ns : List Node) :
    Runs doomed before ns (doomedRuns doomed before ns) := by
  fun_induction doomedRuns doomed before ns with
  | case1 => exact .nil
  | case2 before n ns hd last rest run ih =>
      have hr : n :: ns = (n :: ns.takeWhile doomed).dropLast ++ last :: rest := by
        simp only [last, rest]
        rw [List.append_cons, List.getLastD_cons, ← List.getLast_eq_getLastD (List.cons_ne_nil _ _),
          List.dropLast_append_getLast, List.cons_append, List.takeWhile_append_dropWhile]
      have hk : ∀ m ∈ rest.head?, doomed m = false := fun m hm => by
        have := List.head?_dropWhile_not doomed ns
        rw [Option.mem_def.mp hm] at this
        simpa using this
      have hu : ∀ m ∈ (n :: ns.takeWhile doomed).dropLast ++ [last], doomed m := by
        simp only [last]
        rw [List.getLastD_cons, ← List.getLast_eq_getLastD (List.cons_ne_nil _ _),
          List.dropLast_append_getLast]
        intro m hm
        rcases List.mem_cons.mp hm with rfl | hm
        · exact hd
        · exact List.all_eq_true.mp List.all_takeWhile m hm
      refine .run hd hr hu ?_ ?_ ih
      · cases before with
        | some b => exact .inr ⟨b, rfl, rfl⟩
        | none => left; simp only [run]; split <;> trivial
      · cases before with
        | some b => exact .inl rfl
        | none =>
          cases hm : rest with
          | nil => left; simp only [run, hm]; trivial
          | cons m ms =>
            exact .inr ⟨m, ms, rfl, hk m (by rw [hm]; rfl), by simp only [run, hm]; trivial⟩
  | case3 before n ns hd ih => exact .kept (by simpa using hd) ih

namespace Runs

variable {doomed : Node → Bool} {before : Option Node} {ns : List Node} {rs : List Span}

/-- The ends of the ranges are ends of names, or the end of the name before them. -/
theorem ends {P : Nat → Prop} (h : Runs doomed before ns rs) (hb : ∀ b ∈ before, P b.stop)
    (hn : ∀ n ∈ ns, n.span.Ends P) : ∀ r ∈ rs, r.Ends P := by
  induction h with
  | nil => nofun
  | kept _ _ ih =>
      have hn' := hn _ List.mem_cons_self
      exact ih (fun b hb => Option.mem_some.mp hb ▸ hn'.2) fun m hm => hn m (.tail _ hm)
  | run _ hr _ hs ht _ ih =>
      have hn' := hn _ List.mem_cons_self
      rw [hr] at hn
      have hl := hn _ (List.mem_append_right _ List.mem_cons_self)
      have hrest := fun m hm => hn m (List.mem_append_right _ (.tail _ hm))
      intro q hq
      rcases List.mem_cons.mp hq with rfl | hq
      · refine ⟨?_, ?_⟩
        · rcases hs with hs | ⟨b, hm, hs⟩
          · exact hs ▸ hn'.1
          · exact hs ▸ hb b hm
        · rcases ht with ht | ⟨m, ms, rfl, _, ht⟩
          · exact ht ▸ hl.2
          · exact ht ▸ (hrest m List.mem_cons_self).1
      · exact ih (fun b hb => Option.mem_some.mp hb ▸ hl.2) hrest q hq

theorem le_start {k : Nat} (h : Runs doomed before ns rs) (hb : ∀ b ∈ before, k ≤ b.stop)
    (hn : ∀ n ∈ ns, k ≤ n.start ∧ n.start ≤ n.stop) : ∀ r ∈ rs, k ≤ r.start := by
  intro r hr
  refine (h.ends (P := (k ≤ ·)) hb (fun n hm => ?_) r hr).1
  exact ⟨(hn n hm).1, Nat.le_trans (hn n hm).1 (hn n hm).2⟩

/-- The ranges for names that are apart are apart. -/
theorem pairwise (h : Runs doomed before ns rs) (hb : ∀ b ∈ before, ∀ n ∈ ns, b.stop ≤ n.start)
    (hn : ns.Pairwise fun n m => n.stop ≤ m.start) (hle : ∀ n ∈ ns, n.start ≤ n.stop) :
    (∀ r ∈ rs, r.start ≤ r.stop) ∧ rs.Pairwise fun r q => r.stop ≤ q.start := by
  induction h with
  | nil => exact ⟨nofun, .nil⟩
  | kept _ _ ih =>
      obtain ⟨hnm, hn⟩ := List.pairwise_cons.mp hn
      exact ih (fun b hb => Option.mem_some.mp hb ▸ hnm) hn fun m hm => hle m (.tail _ hm)
  | @run before n ns us last rest r rs _ hr _ hs ht hrs ih =>
      have hb := fun b hm => hb b hm n List.mem_cons_self
      rw [hr] at hn hle
      obtain ⟨_, hn, hul⟩ := List.pairwise_append.mp hn
      obtain ⟨hlm, hn⟩ := List.pairwise_cons.mp hn
      have hle' : ∀ m ∈ rest, m.start ≤ m.stop := fun m hm =>
        hle m (List.mem_append_right _ (.tail _ hm))
      obtain ⟨ih, ihp⟩ := ih (fun b hb => Option.mem_some.mp hb ▸ hlm) hn hle'
      -- The run starts with the list and ends with its last name or behind it.
      have hnl : n.start ≤ last.stop := by
        have hl := hle last (List.mem_append_right _ List.mem_cons_self)
        cases us with
        | nil => rwa [(List.cons.inj hr).1]
        | cons u us =>
            obtain ⟨rfl, _⟩ := List.cons.inj hr
            have := hle n List.mem_cons_self
            have := hul n List.mem_cons_self last List.mem_cons_self
            omega
      have hrn : r.start ≤ n.start := by
        rcases hs with hs | ⟨b, hm, hs⟩
        · exact Nat.le_of_eq hs
        · exact hs ▸ hb b hm
      have hlr : last.stop ≤ r.stop := by
        rcases ht with ht | ⟨m, ms, rfl, _, ht⟩
        · exact Nat.le_of_eq ht.symm
        · exact ht ▸ hlm m List.mem_cons_self
      refine ⟨fun q hq => ?_, .cons (fun q hq => ?_) ihp⟩
      · rcases List.mem_cons.mp hq with rfl | hq
        · omega
        · exact ih q hq
      · rcases ht with ht | ⟨m, ms, rfl, hm, ht⟩
        · refine ht ▸ hrs.le_start (fun b hb => ?_) (fun m hm => ⟨hlm m hm, hle' m hm⟩) q hq
          exact Option.mem_some.mp hb ▸ Nat.le_refl _
        · -- The name where the run ends is kept, and what follows starts behind it.
          have hms := (List.pairwise_cons.mp hn).1
          have hmm := hle' m List.mem_cons_self
          cases hrs with
          | run hd => rw [hm] at hd; cases hd
          | kept _ hrs =>
              refine ht ▸ hrs.le_start (fun b hb => ?_) (fun k hk => ?_) q hq
              · exact Option.mem_some.mp hb ▸ hmm
              · exact ⟨Nat.le_trans hmm (hms k hk), hle' k (.tail _ hk)⟩

/-- The ranges do not reach into the names that are kept. -/
theorem keeps (h : Runs doomed before ns rs) (hn : ns.Pairwise fun n m => n.stop ≤ m.start)
    (hle : ∀ n ∈ ns, n.start ≤ n.stop) {k : Node} (hk : k ∈ ns) (hd : doomed k = false) :
    ∀ r ∈ rs, r.stop ≤ k.start ∨ k.stop ≤ r.start := by
  induction h with
  | nil => nofun
  | @kept _ n ns _ _ hrs ih =>
      obtain ⟨hnm, hn⟩ := List.pairwise_cons.mp hn
      have hle' := fun m hm => hle m (.tail n hm)
      rcases List.mem_cons.mp hk with rfl | hk
      · intro r hr
        refine .inr (hrs.le_start (fun b hb => ?_) (fun m hm => ⟨hnm m hm, hle' m hm⟩) r hr)
        exact Option.mem_some.mp hb ▸ Nat.le_refl _
      · exact ih hn hle' hk
  | @run _ n ns us last rest r rs _ hr hu _ ht _ ih =>
      have hk' : k ∈ rest := by
        rw [hr, List.append_cons] at hk
        refine (List.mem_append.mp hk).resolve_left fun hm => ?_
        rw [hu k hm] at hd
        cases hd
      rw [hr] at hn hle
      obtain ⟨hlm, hp⟩ := List.pairwise_cons.mp (List.pairwise_append.mp hn).2.1
      have hle' : ∀ m ∈ rest, m.start ≤ m.stop := fun m hm =>
        hle m (List.mem_append_right _ (.tail _ hm))
      intro q hq
      rcases List.mem_cons.mp hq with rfl | hq
      · left
        rcases ht with ht | ⟨m, ms, rfl, _, ht⟩
        · exact ht ▸ hlm k hk'
        · rcases List.mem_cons.mp hk' with rfl | hkm
          · exact Nat.le_of_eq ht
          · have := hle' m List.mem_cons_self
            have := (List.pairwise_cons.mp hp).1 k hkm
            omega
      · exact ih hp hle' hk' q hq

end Runs

/-! ## Sections -/

section Removal

variable {doomed : Node → Bool}

theorem apart_childrenOf (hn : n ∈ (parse text).nodes) (k : Kind) :
    (n.childrenOf k).Pairwise fun a b => a.stop ≤ b.start :=
  (ranged hn).apart.filter _

theorem cut_removeFromList (hn : n ∈ (parse text).nodes)
    (hs : (∃ m ∈ n.childrenOf NodeKind.variableDeclarationName, doomed m) → text.Solid n.span) :
    (∀ e ∈ removeFromList doomed n, e.Cut text n.span) ∧
      (removeFromList doomed n).Pairwise fun e f => e.span.stop ≤ f.span.start := by
  have hc : ∀ m ∈ n.childrenOf NodeKind.variableDeclarationName,
      m ∈ n.children ∧ m ∈ (parse text).nodes ∧ m.start ≤ m.stop := fun m hm => by
    have hc := (mem_of_childrenOf hm).1
    exact ⟨hc, mem_nodes_of_child hn hc, (ranged (mem_nodes_of_child hn hc)).start_le_stop⟩
  rw [removeFromList]
  split
  · exact ⟨nofun, .nil⟩
  rename_i hany
  have hs := hs (List.any_eq_true.mp (by simpa using hany))
  split
  · exact ⟨by simpa using cut_wholeLines hn hs, List.pairwise_singleton ..⟩
  have hr := runs_doomedRuns doomed none (n.childrenOf NodeKind.variableDeclarationName)
  obtain ⟨hle, hp⟩ := hr.pairwise nofun (apart_childrenOf hn _) fun m hm => (hc m hm).2.2
  have he := hr.ends (P := fun k => text.Seam k ∧ n.start ≤ k ∧ k ≤ n.stop) nofun fun m hm => by
    obtain ⟨hmc, hmn, hle⟩ := hc m hm
    have hcov := covers_of_mem_children hn hmc
    have hsm := (seams hmn).1
    exact ⟨⟨hsm.1, hcov.1, Nat.le_trans hle hcov.2⟩, hsm.2, Nat.le_trans hcov.1 hle, hcov.2⟩
  refine ⟨fun e hm => ?_, List.pairwise_map.mpr hp⟩
  obtain ⟨r, hr, rfl⟩ := List.mem_map.mp hm
  obtain ⟨hstart, hstop⟩ := he r hr
  exact ⟨n.span, hs, Nat.le_refl _, Nat.le_refl _,
    hle r hr, ⟨hstart.1, hstop.1⟩, .inr ⟨hstart.2.1, hstop.2.2⟩⟩

/-- The deletions for an entry of a section that keeps some of its declarations. -/
def removeFromEntry (doomed : Node → Bool) (n : Node) : List Edit :=
  if n.is NodeKind.variableDeclaration then
    if doomed n then [Edit.delete n.wholeLines] else []
  else if n.is NodeKind.variableListDeclaration then removeFromList doomed n
  else []

theorem removeFromSection_eq (doomed : Node → Bool) (v : Node) : removeFromSection doomed v =
    if v.sectionDeclarations.all doomed then [Edit.delete v.wholeLines]
    else v.childNodes.flatMap (removeFromEntry doomed) := rfl

/-- An entry of a section is removed, or some of its names are. -/
def Touched (doomed : Node → Bool) (n : Node) : Prop :=
  n.kind = NodeKind.variableDeclaration ∧ doomed n ∨
    n.kind = NodeKind.variableListDeclaration ∧
      ∃ m ∈ n.childrenOf NodeKind.variableDeclarationName, doomed m

theorem cut_removeFromEntry (hn : n ∈ (parse text).nodes)
    (hs : Touched doomed n → text.Solid n.span) :
    (∀ e ∈ removeFromEntry doomed n, e.Cut text n.span) ∧
      (removeFromEntry doomed n).Pairwise fun e f => e.span.stop ≤ f.span.start := by
  rw [removeFromEntry]
  split
  · rename_i hk
    split
    · rename_i hd
      have hs := hs (.inl ⟨by simpa [Node.is] using hk, hd⟩)
      exact ⟨by simpa using cut_wholeLines hn hs, List.pairwise_singleton ..⟩
    · exact ⟨by simp, .nil⟩
  · split
    · rename_i hk
      exact cut_removeFromList hn fun hd => hs (.inr ⟨by simpa [Node.is] using hk, hd⟩)
    · exact ⟨by simp, .nil⟩

theorem of_mem_childNodes (hv : v ∈ (parse text).nodes) (hn : n ∈ v.childNodes) :
    n ∈ v.children ∧ n ∈ (parse text).nodes ∧ n.id ≠ 0 := by
  have hc := mem_of_childNodes hn
  exact ⟨hc, mem_nodes_of_child hv hc,
    Nat.ne_of_gt (Nat.zero_lt_of_lt (parent_of_mem_children hv hc).1)⟩

theorem cut_removeFromSection (hv : v ∈ (parse text).nodes) (hs : text.Solid v.span)
    (hse : ∀ n ∈ v.childNodes, Touched doomed n → text.Solid n.span) :
    (∀ e ∈ removeFromSection doomed v, e.Cut text v.span) ∧
      (removeFromSection doomed v).Pairwise fun e f => e.span.stop ≤ f.span.start := by
  rw [removeFromSection_eq]
  split
  · exact ⟨by simpa using cut_wholeLines hv hs, List.pairwise_singleton ..⟩
  have hf : ∀ n ∈ v.childNodes, (∀ e ∈ removeFromEntry doomed n, e.Cut text n.span) ∧
      (removeFromEntry doomed n).Pairwise fun e f => e.span.stop ≤ f.span.start := fun n hn =>
    cut_removeFromEntry (of_mem_childNodes hv hn).2.1 (hse n hn)
  refine ⟨fun e he => ?_, List.pairwise_flatMap.mpr ⟨fun n hn => (hf n hn).2, ?_⟩⟩
  · obtain ⟨n, hn, he⟩ := List.mem_flatMap.mp he
    have hcov := covers_of_mem_children hv (of_mem_childNodes hv hn).1
    exact ((hf n hn).1 e he).mono hcov.1 hcov.2
  · have ha : v.childNodes.Pairwise fun a b => a.stop ≤ b.start := (ranged hv).apart.filter _
    exact ha.imp_of_mem fun ha hb hab x hx y hy =>
      ((hf _ ha).1 x hx).stop_le ((hf _ hb).1 y hy) hab

/-! ## Several sections -/

theorem distinct_spec (ns : List Node) :
    (∀ n ∈ distinct ns, n ∈ ns) ∧ (distinct ns).Pairwise fun n m => n.id ≠ m.id := by
  refine List.foldlRecOn (motive := fun seen : List Node =>
    (∀ n ∈ seen, n ∈ ns) ∧ seen.Pairwise fun n m => n.id ≠ m.id) ns _
    ⟨fun n hn => absurd hn List.not_mem_nil, .nil⟩ ?_
  rintro seen ⟨hm, hp⟩ n hn
  split
  · exact ⟨hm, hp⟩
  · rename_i hs
    refine ⟨fun m h => ?_, List.pairwise_append.mpr ⟨hp, List.pairwise_singleton .., ?_⟩⟩
    · rcases List.mem_append.mp h with h | h
      · exact hm m h
      · exact List.mem_singleton.mp h ▸ hn
    · rintro a ha b hb hab
      obtain rfl := List.mem_singleton.mp hb
      exact hs (List.any_eq_true.mpr ⟨a, ha, by simpa [same] using hab⟩)

/-- Sections of variables are not nested, so they are apart. -/
theorem apart_sections (hn : n ∈ (parse text).nodes) (hm : m ∈ (parse text).nodes)
    (hnk : n.kind.isVarSection) (hmk : m.kind.isVarSection) (hne : n.id ≠ m.id) :
    n.stop ≤ m.start ∨ m.stop ≤ n.start := by
  refine (apart_of_not_below hn hm (not_below_section hn hm hnk hmk hne)
    (not_below_section hm hn hmk hnk hne.symm)).imp ?_ ?_
  · exact Nat.le_trans (stop_le_full hn)
  · exact Nat.le_trans (stop_le_full hm)

theorem of_varSection? (hn : n ∈ (parse text).nodes) (hv : n.varSection? = some v) :
    v ∈ (parse text).nodes ∧ v.kind.isVarSection ∧ v.id ≠ 0 := by
  have hvn := (below_of_mem_ancestors hn (List.mem_of_find?_eq_some hv)).1
  have hvk : v.kind.isVarSection := by simpa using List.find?_some hv
  refine ⟨hvn, hvk, fun hi => ?_⟩
  rw [kind_root hvn hi] at hvk
  cases hvk

/-- The declarations, the lists they are names of and their sections end with a token. -/
def Complete (text : Text) (ds : List Node) : Prop :=
  ∀ d ∈ ds, ∀ m ∈ d.ancestors,
    m.isOneOf [.variableDeclaration, .variableListDeclaration, .varSection, .globalVarSection] →
      text.Solid m.span

theorem complete_of_ok (h : (parse text).ok) (hd : ∀ d ∈ ds, d ∈ (parse text).nodes) :
    Complete text ds := by
  intro d hdm m hm hk
  have hmn := (below_of_mem_ancestors (hd d hdm) hm).1
  refine solid h hmn fun hi => ?_
  rw [isOneOf, isAny, kind_root hmn hi] at hk
  cases hk

theorem isOneOf_of_isVarSection (h : v.kind.isVarSection) :
    v.isOneOf [.variableDeclaration, .variableListDeclaration, .varSection, .globalVarSection] := by
  rw [isOneOf, isAny]
  rcases hk : v.kind with k | k
  · rw [hk] at h
    cases h
  · rw [hk] at h
    cases k <;> first | rfl | cases h

theorem Complete.entry (hs : Complete text ds) (hd : ∀ d ∈ ds, d ∈ (parse text).nodes)
    (hn : n ∈ (parse text).nodes) (ht : Touched (fun m => ds.any (·.same m)) n) :
    text.Solid n.span := by
  have hmem : ∀ m ∈ (parse text).nodes, ds.any (·.same m) → m ∈ ds := fun m hm h => by
    obtain ⟨d, hdm, hdm'⟩ := List.any_eq_true.mp h
    have hi : d.id = m.id := by simpa [same] using hdm'
    exact eq_of_id (hd d hdm) hm hi ▸ hdm
  rcases ht with ⟨hk, hdn⟩ | ⟨hk, m, hm, hdm⟩
  · refine hs n (hmem n hn hdn) n n.mem_ancestors_self ?_
    rw [isOneOf, isAny, hk]
    rfl
  · have hmc := (mem_of_childrenOf hm).1
    refine hs m (hmem m (mem_nodes_of_child hn hmc) hdm) n ?_ ?_
    · rw [ancestors_of_mem_children hn hmc]
      exact List.mem_cons_of_mem _ n.mem_ancestors_self
    · rw [isOneOf, isAny, hk]
      rfl

/-- The deletions for complete declarations of a text lie in the sections of these and do not reach into
each other. -/
theorem cut_undeclare_of_complete (hs : Complete text ds) (hd : ∀ d ∈ ds, d ∈ (parse text).nodes) :
    (∀ e ∈ undeclare ds, ∃ d ∈ ds, ∃ v, d.varSection? = some v ∧ e.Cut text v.span) ∧
      (undeclare ds).Pairwise Edit.Apart := by
  obtain ⟨hds, hne⟩ := distinct_spec (ds.filterMap varSection?)
  have hv : ∀ v ∈ distinct (ds.filterMap varSection?), ∃ d ∈ ds, d.varSection? = some v :=
    fun v hv => List.mem_filterMap.mp (hds v hv)
  have hv' : ∀ v ∈ distinct (ds.filterMap varSection?),
      v ∈ (parse text).nodes ∧ v.kind.isVarSection := fun v hm => by
    obtain ⟨d, hdm, hdv⟩ := hv v hm
    exact ⟨(of_varSection? (hd d hdm) hdv).1, (of_varSection? (hd d hdm) hdv).2.1⟩
  have hcut : ∀ v ∈ distinct (ds.filterMap varSection?),
      (∀ e ∈ removeFromSection (fun n => ds.any (·.same n)) v, e.Cut text v.span) ∧
        (removeFromSection (fun n => ds.any (·.same n)) v).Pairwise
          fun e f => e.span.stop ≤ f.span.start := fun v hm => by
    obtain ⟨d, hdm, hdv⟩ := hv v hm
    obtain ⟨hvn, hvk⟩ := hv' v hm
    have hsv := hs d hdm v (List.mem_of_find?_eq_some hdv) (isOneOf_of_isVarSection hvk)
    exact cut_removeFromSection hvn hsv
      fun n hn ht => hs.entry hd (of_mem_childNodes hvn hn).2.1 ht
  have hp := List.mergeSort_perm ((distinct (ds.filterMap varSection?)).flatMap
    (removeFromSection fun n => ds.any (·.same n))) fun a b => a.span.start ≤ b.span.start
  rw [undeclare]
  refine ⟨fun e he => ?_, (hp.pairwise_iff Edit.Apart.symm).mpr ?_⟩
  · obtain ⟨v, hm, he⟩ := List.mem_flatMap.mp (hp.mem_iff.mp he)
    obtain ⟨d, hdm, hdv⟩ := hv v hm
    exact ⟨d, hdm, v, hdv, (hcut v hm).1 e he⟩
  · refine List.pairwise_flatMap.mpr ⟨fun v hm => ?_, hne.imp_of_mem fun {v w} hm hm' hne => ?_⟩
    · obtain ⟨hc, hp⟩ := hcut v hm
      exact hp.imp_of_mem fun he hf => .of_le (hc _ he).le (hc _ hf).le
    · obtain ⟨hvn, hvk⟩ := hv' v hm
      obtain ⟨hwn, hwk⟩ := hv' w hm'
      intro e he f hf
      have he := (hcut v hm).1 e he
      have hf := (hcut w hm').1 f hf
      rcases apart_sections hvn hwn hvk hwk hne with hle | hle
      · exact .of_le he.le hf.le (he.stop_le hf hle)
      · exact (Edit.Apart.of_le hf.le he.le (hf.stop_le he hle)).symm

theorem cut_undeclare (h : (parse text).ok) (hd : ∀ d ∈ ds, d ∈ (parse text).nodes) :
    (∀ e ∈ undeclare ds, ∃ d ∈ ds, ∃ v, d.varSection? = some v ∧ e.Cut text v.span) ∧
      (undeclare ds).Pairwise Edit.Apart :=
  cut_undeclare_of_complete (complete_of_ok h hd) hd

/-- Any complete declarations of a text can be removed, whatever else is wrong with it. -/
theorem apply_undeclare_of_complete (hs : Complete text ds) (hd : ∀ d ∈ ds, d ∈ (parse text).nodes) :
    Edit.apply (undeclare ds) text = .ok (Edit.rewritten (undeclare ds) 0 text) := by
  obtain ⟨hcut, hap⟩ := cut_undeclare_of_complete hs hd
  refine Edit.apply_seams (fun e he => ?_) hap
  obtain ⟨_, _, _, _, hcut⟩ := hcut e he
  exact ⟨hcut.le, hcut.ends⟩

/-- Where nothing is wrong with a text, any declarations of it can be removed. -/
theorem apply_undeclare (h : (parse text).ok) (hd : ∀ d ∈ ds, d ∈ (parse text).nodes) :
    Edit.apply (undeclare ds) text = .ok (Edit.rewritten (undeclare ds) 0 text) :=
  apply_undeclare_of_complete (complete_of_ok h hd) hd

/-- A declaration without its type ends where the next token starts. If this is the first one of its
line, the lines of the declaration and of the one behind it have the blanks before this token in
common. -/
theorem undeclare_overlaps :
    let text : Text := "codeunit 1 A \x7b\n  var x:\n  var y: Integer;\n\x7d"
    ∃ es, removeVariablesOf (parse text) [10, 17] = .ok es ∧
      Edit.apply es text = .error (.overlap ⟨15, 26⟩ ⟨24, 42⟩) := by
  intro text
  let ds := [10, 17].filterMap (parse text).get?
  have hf : ds.find? (fun n => !n.isOneOf [.variableDeclaration, .variableDeclarationName]) =
      none := by decide +kernel
  have hes : (distinct (ds.filterMap varSection?)).flatMap
      (removeFromSection fun n => ds.any (·.same n)) =
        [Edit.delete ⟨15, 26⟩, Edit.delete ⟨24, 42⟩] := by decide +kernel
  have hu : undeclare ds = [Edit.delete ⟨15, 26⟩, Edit.delete ⟨24, 42⟩] := by
    rw [undeclare, hes]
    exact List.mergeSort_of_pairwise (by decide)
  refine ⟨undeclare ds, ?_, ?_⟩
  · rw [removeVariablesOf, hf]
  · rw [hu, Edit.apply, Edit.sort, List.mergeSort_of_pairwise (by decide)]
    rfl

/-! ## What is kept -/

/-- What declares a variable of a section: the word that opens the section, and the declaration and,
if this is a name of a list, what the list has besides its names. -/
inductive Declares (v d : Node) : Node → Prop
  | word {p} : p ∈ v.children → p.isToken → Declares v d p
  | self : Declares v d d
  | list {l p} : l ∈ v.children → d ∈ l.childrenOf NodeKind.variableDeclarationName →
      p ∈ l.children → p.kind ≠ TokenKind.comma → p.kind ≠ NodeKind.variableDeclarationName →
      Declares v d p

variable {d p l : Node}

/-- The rest of a list stands before or behind all of its names. -/
theorem beside_names (h : (parse text).ok) (hl : l ∈ (parse text).nodes)
    (hk : l.kind = NodeKind.variableListDeclaration) (hp : p ∈ l.children)
    (hpc : p.kind ≠ TokenKind.comma) (hpn : p.kind ≠ NodeKind.variableDeclarationName) :
    (∀ n ∈ l.childrenOf NodeKind.variableDeclarationName, p.stop ≤ n.start) ∨
      ∀ n ∈ l.childrenOf NodeKind.variableDeclarationName, n.stop ≤ p.start := by
  obtain ⟨x, u, z, hx, hX, hY, hZ⟩ :=
    Pattern.mem_variableListDeclaration (matches_of_kind h hl hk)
  obtain ⟨xs, us, hch, rfl, hu⟩ := List.map_eq_append_iff.mp hx
  obtain ⟨ys, zs, rfl, rfl, rfl⟩ := List.map_eq_append_iff.mp hu
  have ha := (ranged hl).apart
  rw [hch] at ha hp
  obtain ⟨_, hyz, hxyz⟩ := List.pairwise_append.mp ha
  have hn : ∀ n ∈ l.childrenOf NodeKind.variableDeclarationName, n ∈ ys := by
    intro n hn
    obtain ⟨hn, hnk⟩ := mem_of_childrenOf hn
    rw [hch] at hn
    rcases List.mem_append.mp hn with hn | hn
    · exact absurd hnk (kind_symbol n ▸ hX _ (List.mem_map_of_mem hn))
    · exact (List.mem_append.mp hn).resolve_right fun hn =>
        absurd hnk (kind_symbol n ▸ hZ _ (List.mem_map_of_mem hn))
  rcases List.mem_append.mp hp with hp | hp
  · exact .inl fun n hm => hxyz p hp n (List.mem_append_left _ (hn n hm))
  · right
    have hp : p ∈ zs := (List.mem_append.mp hp).resolve_left fun hp =>
      (kind_symbol p ▸ hY _ (List.mem_map_of_mem hp)).elim hpc hpn
    exact fun n hm => (List.pairwise_append.mp hyz).2.2 n (hn n hm) p hp

theorem keeps_removeFromList (h : (parse text).ok) (hl : l ∈ (parse text).nodes)
    (hk : l.kind = NodeKind.variableListDeclaration)
    (hd : d ∈ l.childrenOf NodeKind.variableDeclarationName) (hdd : doomed d = false)
    (hp : p = d ∨ p ∈ l.children ∧ p.kind ≠ TokenKind.comma ∧
      p.kind ≠ NodeKind.variableDeclarationName) :
    ∀ e ∈ removeFromList doomed l, e.span.stop ≤ p.start ∨ p.stop ≤ e.span.start := by
  have hle : ∀ n ∈ l.childrenOf NodeKind.variableDeclarationName, n.start ≤ n.stop := fun n hn =>
    (ranged (mem_nodes_of_child hl (List.mem_filter.mp hn).1)).start_le_stop
  have hna : (l.childrenOf NodeKind.variableDeclarationName).all doomed = false :=
    List.all_eq_false.mpr ⟨d, hd, by simp [hdd]⟩
  have hr := runs_doomedRuns doomed none (l.childrenOf NodeKind.variableDeclarationName)
  rw [removeFromList, hna]
  split
  · nofun
  intro e he
  obtain ⟨r, hm, rfl⟩ := List.mem_map.mp he
  rcases hp with rfl | ⟨hp, hpc, hpn⟩
  · exact hr.keeps (apart_childrenOf hl _) hle hd hdd r hm
  · rcases beside_names h hl hk hp hpc hpn with hb | hb
    · exact .inr (hr.ends (P := (p.stop ≤ ·)) nofun
        (fun n hn => ⟨hb n hn, Nat.le_trans (hb n hn) (hle n hn)⟩) r hm).1
    · exact .inl (hr.ends (P := (· ≤ p.start)) nofun
        (fun n hn => ⟨Nat.le_trans (hle n hn) (hb n hn), hb n hn⟩) r hm).2

/-- A declaration of a section is an entry or a name of an entry. -/
theorem mem_sectionDeclarations : d ∈ v.sectionDeclarations ↔ ∃ c ∈ v.childNodes,
    c.kind = NodeKind.variableDeclaration ∧ d = c ∨
      c.kind = NodeKind.variableListDeclaration ∧
        d ∈ c.childrenOf NodeKind.variableDeclarationName := by
  rw [sectionDeclarations, List.mem_flatMap]
  refine exists_congr fun c => and_congr_right fun _ => ?_
  by_cases hd : c.kind = NodeKind.variableDeclaration
  · simp [Node.is, hd]
  · by_cases hl : c.kind = NodeKind.variableListDeclaration <;> simp [Node.is, hd, hl]

/-- What declares a variable is the word of its section or stands in the entry of the variable. -/
theorem Declares.place (h : (parse text).ok) (hv : v ∈ (parse text).nodes)
    (hd : d ∈ v.sectionDeclarations) (hp : Declares v d p) :
    text.Solid p.span ∧ ∃ c ∈ v.children, (c.start ≤ p.start ∧ p.stop ≤ c.stop) ∧
      (c.isToken ∨ c.kind = NodeKind.variableDeclaration ∧ d = c ∨
        c.kind = NodeKind.variableListDeclaration ∧
          d ∈ c.childrenOf NodeKind.variableDeclarationName ∧
          (p = d ∨ p ∈ c.children ∧ p.kind ≠ TokenKind.comma ∧
            p.kind ≠ NodeKind.variableDeclarationName)) := by
  obtain ⟨c, hc, hcd⟩ := mem_sectionDeclarations.mp hd
  obtain ⟨hc, hcn, _⟩ := of_mem_childNodes hv hc
  cases hp with
  | word hp hk =>
      exact ⟨solid_of_mem_children h hv hp, p, hp, ⟨Nat.le_refl _, Nat.le_refl _⟩, .inl hk⟩
  | self =>
      rcases hcd with ⟨hk, rfl⟩ | ⟨hk, hd⟩
      · exact ⟨solid_of_mem_children h hv hc, d, hc, ⟨Nat.le_refl _, Nat.le_refl _⟩,
          .inr (.inl ⟨hk, rfl⟩)⟩
      · have hdc := (mem_of_childrenOf hd).1
        exact ⟨solid_of_mem_children h hcn hdc, c, hc, covers_of_mem_children hcn hdc,
          .inr (.inr ⟨hk, hd, .inl rfl⟩)⟩
  | @list l _ hl hdl hp hpc hpn =>
      have hln := mem_nodes_of_child hv hl
      obtain ⟨hdl', hdk⟩ := mem_of_childrenOf hdl
      rcases hcd with ⟨hk, rfl⟩ | ⟨hk, hd⟩
      · cases hk.symm.trans hdk
      · -- A node has one parent only, so the list is the entry.
        have hdp := (parent_of_mem_children hcn (mem_of_childrenOf hd).1).2
        obtain rfl := Option.some.inj ((parent_of_mem_children hln hdl').2.symm.trans hdp)
        exact ⟨solid_of_mem_children h hln hp, l, hl, covers_of_mem_children hln hp,
          .inr (.inr ⟨hk, hdl, .inr ⟨hp, hpc, hpn⟩⟩)⟩

theorem keeps_removeFromSection (h : (parse text).ok) (hv : v ∈ (parse text).nodes)
    (hd : d ∈ v.sectionDeclarations) (hdd : doomed d = false) (hp : Declares v d p) :
    ∀ e ∈ removeFromSection doomed v, e.span.stop ≤ p.start ∨ p.stop ≤ e.span.start := by
  obtain ⟨hps, c, hc, hcov, hcp⟩ := hp.place h hv hd
  have hna : v.sectionDeclarations.all doomed = false :=
    List.all_eq_false.mpr ⟨d, hd, by simp [hdd]⟩
  rw [removeFromSection_eq, hna]
  intro e he
  obtain ⟨n, hn, he⟩ := List.mem_flatMap.mp he
  obtain ⟨hnv, hnn, hni⟩ := of_mem_childNodes hv hn
  rcases children_apart hv hnv hc with rfl | hnc
  · rcases hcp with hcp | ⟨hk, rfl⟩ | ⟨hk, hdn, hp⟩
    · simp [Node.childNodes, hcp] at hn
    · simp [removeFromEntry, Node.is, hk, hdd] at he
    · rw [removeFromEntry] at he
      simp only [Node.is, hk] at he
      exact keeps_removeFromList h hnn hk hdn hdd hp e he
  · refine ((cut_removeFromEntry hnn fun _ => solid h hnn hni).1 e he).beside hps ?_
    exact hnc.imp (Nat.le_trans · hcov.1) (Nat.le_trans hcov.2)

/-- Where nothing is wrong with a text, no deletion reaches into what declares a variable that is
kept. -/
theorem keeps_undeclare (h : (parse text).ok) (hds : ∀ n ∈ ds, n ∈ (parse text).nodes)
    (hv : v ∈ (parse text).nodes) (hvk : v.kind.isVarSection) (hd : d ∈ v.sectionDeclarations)
    (hdd : ∀ n ∈ ds, n.id ≠ d.id) (hp : Declares v d p) :
    ∀ e ∈ undeclare ds, e.span.stop ≤ p.start ∨ p.stop ≤ e.span.start := by
  intro e he
  obtain ⟨w, hw, he⟩ := List.mem_flatMap.mp ((List.mergeSort_perm ..).mem_iff.mp he)
  obtain ⟨n, hn, hnw⟩ := List.mem_filterMap.mp ((distinct_spec _).1 w hw)
  obtain ⟨hwn, hwk, hwi⟩ := of_varSection? (hds n hn) hnw
  by_cases hvw : w.id = v.id
  · obtain rfl := eq_of_id hwn hv hvw
    have hdd : ds.any (·.same d) = false := List.any_eq_false.mpr fun n hn => by
      simpa [same] using hdd n hn
    exact keeps_removeFromSection h hv hd hdd hp e he
  · obtain ⟨hps, c, hc, hcov, _⟩ := hp.place h hv hd
    have hse : ∀ n ∈ w.childNodes, Touched (fun n => ds.any (·.same n)) n → text.Solid n.span :=
      fun n hn _ => solid h (of_mem_childNodes hwn hn).2.1 (of_mem_childNodes hwn hn).2.2
    refine ((cut_removeFromSection hwn (solid h hwn hwi) hse).1 e he).beside hps ?_
    have hcv := covers_of_mem_children hv hc
    have := apart_sections hwn hv hwk hvk hvw
    simp only [Node.start, Node.stop] at *
    omega

end Removal

end Node

end AlRefactor
