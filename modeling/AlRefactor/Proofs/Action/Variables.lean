import AlRefactor.Proofs.Action.Extraction
import AlRefactor.Proofs.Text.Names
import Mathlib.Data.List.Induction

/-!
# Variables of statements that become a procedure

The new procedure declares every variable that the statements use once, as a parameter or as a local
that moves with them, and takes by reference what they assign to.
-/

namespace AlRefactor

open SyntaxTree

variable {text : Text} {m n r q o : Node} {s : Selection} {span : Span}

def Selection.uses (s : Selection) : List Node := s.statements.flatMap (·.variableUses)

def Node.bodyUses (m : Node) : List Node := ((m.child? NodeKind.block).map (·.variableUses)).getD []

namespace Extraction

variable {ds : List Declared} {d d' : Declared} {rs : List Node} {i j : Nat}

/-! ## What a name stands for -/

/-- The number of the declaration that a name stands for. -/
def meaning? (ds : List Declared) (r : Node) : Option Nat :=
  ds.findIdx? fun d => d.declared.name.sameName r.text

/-- Some name that stands for the declaration of a number is assigned to. -/
def isWrittenAmong (ds : List Declared) (rs : List Node) (i : Nat) : Bool :=
  rs.any fun r => meaning? ds r == some i && r.isWritten

/-- The declarations that names stand for, in the order of their first use. -/
def meanings (ds : List Declared) (rs : List Node) : List Nat :=
  (rs.filterMap (meaning? ds)).eraseDups

theorem sameName_of_meaning? (h : meaning? ds r = some i) :
    ∃ d, ds[i]? = some d ∧ d.declared.name.sameName r.text := by
  obtain ⟨hi, hr, _⟩ := List.findIdx?_eq_some_iff_getElem.mp h
  exact ⟨ds[i], List.getElem?_eq_getElem hi, hr⟩

theorem meaning?_congr (h : r.text.sameName q.text) : meaning? ds r = meaning? ds q := by
  have hp : (fun d : Declared => d.declared.name.sameName r.text) =
      fun d => d.declared.name.sameName q.text := by
    funext d
    rw [Bool.eq_iff_iff]
    exact ⟨(Text.sameName_trans · h), (Text.sameName_trans · (Text.sameName_comm .. ▸ h))⟩
  rw [meaning?, hp, ← meaning?]

/-- A name that is used stands for the declaration that any other name equal to it stands for. -/
theorem meaning?_of_sameName (h : meaning? ds r = some i) (hd : ds[i]? = some d)
    (hq : d.declared.name.sameName q.text) : meaning? ds q = some i := by
  obtain ⟨d', hd', hr⟩ := sameName_of_meaning? h
  obtain rfl := Option.some.inj (hd.symm.trans hd')
  exact (meaning?_congr (Text.sameName_trans (Text.sameName_comm .. ▸ hr) hq)).symm.trans h

theorem mem_meanings : i ∈ meanings ds rs ↔ ∃ r ∈ rs, meaning? ds r = some i := by
  rw [meanings, List.mem_eraseDups, List.mem_filterMap]

theorem meanings_concat : meanings ds (rs ++ [r]) =
    match meaning? ds r with
    | none => meanings ds rs
    | some i => if i ∈ meanings ds rs then meanings ds rs else meanings ds rs ++ [i] := by
  rw [meanings, List.filterMap_append, List.eraseDups_append, ← meanings]
  cases h : meaning? ds r with
  | none => simp [h]
  | some i =>
      have hi : i ∈ meanings ds rs ↔ i ∈ rs.filterMap (meaning? ds) := List.mem_eraseDups
      simp only [hi]
      split <;> simp_all [List.removeAll, List.eraseDups_cons]

theorem nodup_meanings (ds : List Declared) (rs : List Node) : (meanings ds rs).Nodup := by
  induction rs using List.reverseRecOn with
  | nil => exact .nil
  | append_singleton rs r ih =>
      rw [meanings_concat]
      split
      · exact ih
      · split
        · exact ih
        · simpa using List.Nodup.concat ‹_› ih

/-- Different numbers among the meanings are numbers of declarations with different names. -/
theorem eq_of_mem_meanings (hi : i ∈ meanings ds rs) (hj : j ∈ meanings ds rs)
    (hd : ds[i]? = some d) (hd' : ds[j]? = some d')
    (h : d.declared.name.sameName d'.declared.name) : i = j := by
  obtain ⟨r, _, hr⟩ := mem_meanings.mp hi
  obtain ⟨q, _, hq⟩ := mem_meanings.mp hj
  obtain ⟨e, he, hs⟩ := sameName_of_meaning? hq
  obtain rfl := Option.some.inj (hd'.symm.trans he)
  exact Option.some.inj ((meaning?_of_sameName hr hd (Text.sameName_trans h hs)).symm.trans hq)

theorem usages_concat (ds : List Declared) (rs : List Node) (r : Node) :
    usages ds (rs ++ [r]) =
      match meaning? ds r with
      | none => usages ds rs
      | some i =>
        if (usages ds rs).any (·.1 == i) then
          (usages ds rs).map fun u => if u.1 == i then (i, u.2 || r.isWritten) else u
        else usages ds rs ++ [(i, r.isWritten)] := by
  simp only [usages, List.foldl_append, List.foldl_cons, List.foldl_nil]
  rfl

/-- Every declaration that is used counts once, at its first use, and whether any use assigns to
it. -/
theorem usages_eq (ds : List Declared) (rs : List Node) :
    usages ds rs = (meanings ds rs).map fun i => (i, isWrittenAmong ds rs i) := by
  induction rs using List.reverseRecOn with
  | nil => rfl
  | append_singleton rs r ih =>
      have hw : ∀ i, isWrittenAmong ds (rs ++ [r]) i =
          (isWrittenAmong ds rs i || (meaning? ds r == some i && r.isWritten)) := by
        simp [isWrittenAmong]
      rw [usages_concat, meanings_concat]
      cases hr : meaning? ds r with
      | none => simp [ih, hw, hr]
      | some i =>
          have hany : (usages ds rs).any (·.1 == i) = decide (i ∈ meanings ds rs) := by
            rw [ih, Bool.eq_iff_iff]
            simp
          dsimp only
          rw [hany]
          by_cases hi : i ∈ meanings ds rs
          · -- Seen before: its entry alone may change, to assigned.
            simp only [hi, decide_true, if_true, ih, List.map_map]
            refine List.map_congr_left fun j _ => ?_
            by_cases hj : j = i <;> simp [hw, hr, hj, Ne.symm]
          · -- Its first use: nothing before stands for it, so nothing before assigns to it.
            have hn : ∀ j ∈ meanings ds rs, i ≠ j := fun j hj => (ne_of_mem_of_not_mem hj hi).symm
            have hu : isWrittenAmong ds rs i = false := by
              rw [mem_meanings] at hi
              simp only [isWrittenAmong, List.any_eq_false, Bool.and_eq_true, beq_iff_eq]
              exact fun q hq h => hi ⟨q, hq, h.1⟩
            simp only [hi, decide_false, Bool.false_eq_true, if_false, ih, List.map_append,
              List.map_cons, List.map_nil, hw, hr, hu, beq_self_eq_true, Bool.true_and,
              Bool.false_or]
            congr 1
            refine List.map_congr_left fun j hj => ?_
            simp [hn j hj]

/-! ## Parameters and locals of the new procedure -/

/-- The declaration of a number among those of the old procedure is used in the statements, and this
becomes of it. -/
def Becomes (m : Node) (s : Selection) (i : Nat) (d : Declared) (f : Fate) : Prop :=
  i ∈ meanings (declarations m) s.uses ∧ (declarations m)[i]? = some d ∧
    fate m s.span d (isWrittenAmong (declarations m) s.uses i) = f

def fates (m : Node) (s : Selection) : List Fate :=
  (meanings (declarations m) s.uses).filterMap fun i =>
    (declarations m)[i]?.map fun d => fate m s.span d (isWrittenAmong (declarations m) s.uses i)

theorem mem_fates {f : Fate} : f ∈ fates m s ↔ ∃ i d, Becomes m s i d f := by
  simp only [fates, List.mem_filterMap, Option.map_eq_some_iff, Becomes]
  exact ⟨fun ⟨i, hi, d, hd, hf⟩ => ⟨i, d, hi, hd, hf⟩, fun ⟨i, d, hi, hd, hf⟩ => ⟨i, hi, d, hd, hf⟩⟩

def Fate.variable : Fate → Variable
  | .parameter v | .moved v _ => v

theorem plan_eq (m : Node) (s : Selection) : plan m s =
    ⟨(fates m s).filterMap fun | .parameter v => some v | .moved _ _ => none,
      (fates m s).filterMap fun | .parameter _ => none | .moved v _ => some v,
      (fates m s).filterMap fun | .parameter _ => none | .moved _ n => some n⟩ := by
  have hf : fates m s = (usages (declarations m) s.uses).filterMap fun u =>
      (declarations m)[u.1]?.map fun d => fate m s.span d u.2 := by
    rw [usages_eq, List.filterMap_map]
    rfl
  rw [hf]
  rfl

theorem mem_parameters {v : Variable} :
    v ∈ (plan m s).parameters ↔ .parameter v ∈ fates m s := by
  simp only [plan_eq, List.mem_filterMap]
  constructor
  · rintro ⟨f | _, hf, h⟩
    · cases h
      exact hf
    · cases h
  · exact fun h => ⟨_, h, rfl⟩

theorem mem_removed_iff : n ∈ (plan m s).removed ↔ ∃ v, .moved v n ∈ fates m s := by
  simp only [plan_eq, List.mem_filterMap]
  constructor
  · rintro ⟨_ | ⟨v, _⟩, hf, h⟩
    · cases h
    · cases h
      exact ⟨v, hf⟩
  · exact fun ⟨_, h⟩ => ⟨_, h, rfl⟩

/-- The parameters and the locals of the new procedure are the variables of the old one that the
statements use. -/
theorem variables_perm (m : Node) (s : Selection) :
    ((plan m s).parameters ++ (plan m s).moved).Perm ((fates m s).map Fate.variable) := by
  rw [plan_eq]
  dsimp only
  induction fates m s with
  | nil => exact .nil
  | cons f fs ih =>
      cases f with
      | parameter v => exact .cons v ih
      | moved v n => exact List.perm_middle.trans (.cons v ih)

theorem variable_fate (m : Node) (span : Span) (d : Declared) (w : Bool) :
    (fate m span d w).variable.name = d.declared.name ∧
      (fate m span d w).variable.type = d.declared.type := by
  rw [fate]
  split
  · split <;> exact ⟨rfl, rfl⟩
  · exact ⟨rfl, rfl⟩

theorem names_differ (m : Node) (s : Selection) :
    ((plan m s).parameters ++ (plan m s).moved).Pairwise fun v w => v.name.sameName w.name = false := by
  have hsymm : ∀ {v w : Variable}, v.name.sameName w.name = false → w.name.sameName v.name = false :=
    fun h => Text.sameName_comm .. ▸ h
  rw [(variables_perm m s).pairwise_iff hsymm, List.pairwise_map, fates, List.pairwise_filterMap]
  refine (nodup_meanings _ _).imp_of_mem fun {i j} hi hj hne f hf g hg => ?_
  obtain ⟨d, hd, rfl⟩ := Option.map_eq_some_iff.mp hf
  obtain ⟨e, he, rfl⟩ := Option.map_eq_some_iff.mp hg
  rw [(variable_fate ..).1, (variable_fate ..).1, Bool.eq_false_iff]
  exact fun hs => hne (eq_of_mem_meanings hi hj hd he hs)

def NamesDiffer (ds : List Declared) : Prop :=
  ds.Pairwise fun d e => d.declared.name.sameName e.declared.name = false

/-- Where the names of the old procedure differ, a name stands for the only declaration of it. -/
theorem exists_meaning? (hu : NamesDiffer ds)
    (hd : d ∈ ds) (hr : d.declared.name.sameName r.text) :
    ∃ i, ds[i]? = some d ∧ meaning? ds r = some i := by
  cases hi : meaning? ds r with
  | none =>
      have hn := List.findIdx?_eq_none_iff.mp hi d hd
      rw [hr] at hn
      cases hn
  | some i =>
      obtain ⟨e, he, hs⟩ := sameName_of_meaning? hi
      refine ⟨i, ?_, rfl⟩
      have hp : ds.Pairwise fun d e => d.declared.name.sameName e.declared.name → d = e :=
        hu.imp fun h h' => by rw [h] at h'; cases h'
      have hq : ds.Pairwise fun d e => e.declared.name.sameName d.declared.name → d = e :=
        hp.imp fun h h' => h (Text.sameName_comm .. ▸ h')
      rw [he]
      refine congrArg some (hp.forall_of_forall_of_flip (fun _ _ _ => rfl)
        (hq.imp fun h h' => (h h').symm) (List.mem_of_getElem? he) hd ?_)
      exact Text.sameName_trans hs (Text.sameName_comm .. ▸ hr)

theorem declared_once {d : Declared} (hu : NamesDiffer (declarations m))
    (hd : d ∈ declarations m) (hr : r ∈ s.uses) (hs : d.declared.name.sameName r.text) :
    ∃ v : Variable, v.name = d.declared.name ∧ v.type = d.declared.type ∧
      ((plan m s).parameters ++ (plan m s).moved).filter (·.name.sameName v.name) = [v] := by
  obtain ⟨i, hi, hm⟩ := exists_meaning? hu hd hs
  have hf := mem_fates.mpr ⟨i, d, mem_meanings.mpr ⟨r, hr, hm⟩, hi, rfl⟩
  have hv := (variables_perm m s).mem_iff.mpr (List.mem_map_of_mem hf)
  generalize hw : isWrittenAmong (declarations m) s.uses i = w at hv
  obtain ⟨hn, ht⟩ := variable_fate m s.span d w
  generalize (fate m s.span d w).variable = v at hv hn ht
  have hp := names_differ m s
  obtain ⟨as, bs, hl⟩ := List.append_of_mem hv
  rw [hl] at hp ⊢
  obtain ⟨_, hb, ha⟩ := List.pairwise_append.mp hp
  have ha := fun a hm => ha a hm v List.mem_cons_self
  have hb := fun b hm => Text.sameName_comm .. ▸ (List.pairwise_cons.mp hb).1 b hm
  refine ⟨v, hn, ht, ?_⟩
  rw [List.filter_append, List.filter_cons, if_pos (Text.sameName_refl _),
    List.filter_eq_nil_iff.mpr (by simpa using ha), List.filter_eq_nil_iff.mpr (by simpa using hb)]
  rfl

/-- What moves is a local that the statements use and nothing else does. -/
theorem of_mem_removed (hn : n ∈ (plan m s).removed) : n ∈ m.localDeclarations ∧
    (∃ r ∈ s.uses, n.toVariable.name.sameName r.text) ∧
      usedOutside m s.span n.toVariable.name = false := by
  obtain ⟨v, hv⟩ := mem_removed_iff.mp hn
  obtain ⟨i, d, hi, hd, hf⟩ := mem_fates.mp hv
  obtain ⟨hl, he⟩ := local_of_node (List.mem_of_getElem? hd) (node_of_moved hf)
  obtain ⟨r, hr, hm⟩ := mem_meanings.mp hi
  obtain ⟨e, hde, hs⟩ := sameName_of_meaning? hm
  obtain rfl := Option.some.inj (hd.symm.trans hde)
  rw [he] at hs
  refine ⟨hl, ⟨r, hr, hs⟩, ?_⟩
  rw [← he, Bool.eq_false_iff]
  intro ho
  rw [fate, node_of_moved hf] at hf
  simp only [ho, if_true] at hf
  cases hf

/-- A local moves if the statements use it and nothing else does. -/
theorem mem_removed_iff_used (hu : NamesDiffer (declarations m))
    (hn : n ∈ m.localDeclarations) : n ∈ (plan m s).removed ↔
      (∃ r ∈ s.uses, n.toVariable.name.sameName r.text) ∧
        usedOutside m s.span n.toVariable.name = false := by
  constructor
  · exact fun h => (of_mem_removed h).2
  · rintro ⟨⟨r, hr, hs⟩, ho⟩
    have hd : ⟨n.toVariable, some n⟩ ∈ declarations m :=
      List.mem_append_right _ (List.mem_map_of_mem hn)
    obtain ⟨i, hi, hm⟩ := exists_meaning? hu hd hs
    have hf : ∀ w, fate m s.span ⟨n.toVariable, some n⟩ w =
        .moved (.plain n.toVariable.name n.toVariable.type) n := fun w => by simp [fate, ho]
    exact mem_removed_iff.mpr ⟨_, mem_fates.mpr ⟨i, _, mem_meanings.mpr ⟨r, hr, hm⟩, hi, hf _⟩⟩

end Extraction

/-! ## Uses inside of the statements -/

theorem Node.mem_variableUses (hn : n ∈ (parse text).nodes) : r ∈ n.variableUses ↔
    r ∈ (parse text).nodes ∧ Below (parse text).entries n.id r.id ∧
      r.kind = NodeKind.identifierName ∧ r.standsForVariable := by
  simp only [variableUses, List.mem_filter, mem_subtree hn, Bool.and_eq_true, Node.is, beq_iff_eq,
    and_assoc]

theorem Node.of_mem_bodyUses (hr : r ∈ m.bodyUses) :
    ∃ c ∈ m.children, c.kind = NodeKind.block ∧ r ∈ c.variableUses := by
  rw [bodyUses] at hr
  cases hc : m.child? NodeKind.block with
  | none => rw [hc] at hr; cases hr
  | some c =>
      rw [hc] at hr
      exact ⟨c, (mem_of_child? hc).1, (mem_of_child? hc).2, hr⟩

namespace Selection.Touches

variable {u : Span} {b f l : Node} (ht : Touches text u b f l s)

include ht

theorem covers_statement (hn : n ∈ s.statements) :
    s.span.start ≤ n.start ∧ n.stop ≤ s.span.stop := by
  have hle : ∀ a ∈ s.statements, a.start ≤ a.stop := fun a ha =>
    (ranged (mem_nodes_of_child ht.block.1 (ht.mem_statements ha).1)).start_le_stop
  obtain ⟨ns, hf⟩ := List.head?_eq_some_iff.mp ht.first.1
  obtain ⟨ms, hl⟩ := List.getLast?_eq_some_iff.mp ht.last.1
  have hp := ht.apart
  rw [ht.span]
  constructor
  · rw [hf] at hn hp hle
    rcases List.mem_cons.mp hn with rfl | hn
    · exact Nat.le_refl _
    · exact Nat.le_trans (hle f List.mem_cons_self) ((List.pairwise_cons.mp hp).1 n hn)
  · rw [hl] at hn hp hle
    rcases List.mem_append.mp hn with hn | hn
    · have hnl := (List.pairwise_append.mp hp).2.2 n hn l List.mem_cons_self
      exact Nat.le_trans hnl (hle l (List.mem_append_right _ List.mem_cons_self))
    · rw [List.mem_singleton.mp hn]

/-- A statement of the block that lies in the selection belongs to it. -/
theorem mem_of_overlap (h : (parse text).ok) (hn : n ∈ b.children) (hk : n.kind.isStatement)
    (hs : n.start < s.span.stop ∧ s.span.start < n.stop) : n ∈ s.statements := by
  obtain ⟨hf, _, hfu⟩ := ht.mem_statements (List.mem_of_head? ht.first.1)
  obtain ⟨hl, _, hlu⟩ := ht.mem_statements (List.mem_of_getLast? ht.last.1)
  have hns := (solid_of_mem_children h ht.block.1 hn).start_lt_stop
  have hnl : n.start ≤ l.start := by
    rcases children_apart ht.block.1 hn hl with rfl | hnl | hnl
    · exact Nat.le_refl _
    · exact Nat.le_trans (Nat.le_of_lt hns) hnl
    · rw [ht.span] at hs
      exact absurd hs.1 (Nat.not_lt_of_le hnl)
  have hnu : max n.start u.start < min n.stop u.stop := by
    have hus := ht.first.2
    have hfu := of_decide_eq_true hfu
    have hlu := of_decide_eq_true hlu
    have hsn := hs.2
    rw [ht.span] at hsn
    simp only [Node.start, Node.stop] at *
    omega
  have hkt : n.isToken = false := by
    cases hk' : n.kind with
    | token k => rw [hk'] at hk; cases hk
    | node k => rw [Node.isToken, hk']; rfl
  rw [ht.statements, List.mem_filter, Node.childNodes, List.mem_filter, hkt, hk]
  exact ⟨⟨hn, rfl⟩, decide_eq_true hnu⟩

/-- Of the uses in a body those in the statements are those in their range. -/
theorem mem_uses_iff (h : (parse text).ok) (hr : r ∈ (parse text).nodes)
    (hk : r.kind = NodeKind.identifierName) (hv : r.standsForVariable) :
    r ∈ s.uses ↔ s.span.covers r.span := by
  obtain ⟨hbn, hbk⟩ := ht.block
  rw [Span.covers, Bool.and_eq_true, decide_eq_true_eq, decide_eq_true_eq]
  constructor
  · intro hu
    obtain ⟨n, hn, hu⟩ := List.mem_flatMap.mp hu
    have hnn := mem_nodes_of_child hbn (ht.mem_statements hn).1
    have hc := covers_of_below hnn hr ((Node.mem_variableUses hnn).mp hu).2.1
    have hs := ht.covers_statement hn
    exact ⟨Nat.le_trans hs.1 hc.1, Nat.le_trans hc.2 hs.2⟩
  · rintro ⟨hstart, hstop⟩
    have hri : r.id ≠ 0 := fun hi => by cases hk.symm.trans (kind_root hr hi)
    have hrs := (solid h hr hri).start_lt_stop
    obtain ⟨hf, _⟩ := ht.mem_statements (List.mem_of_head? ht.first.1)
    obtain ⟨hl, _⟩ := ht.mem_statements (List.mem_of_getLast? ht.last.1)
    rw [ht.span] at hstart hstop
    -- A name outside of the block would lie beside it, or be a declaration around it.
    have hb : Below (parse text).entries b.id r.id := by
      by_contra hb
      have hbf := (covers_of_mem_children hbn hf).1
      have hbl := (covers_of_mem_children hbn hl).2
      have hrb : ¬ Below (parse text).entries r.id b.id := fun hrb => by
        have := isDeclarative_of_below h hr hbn hrb (by rw [hk]; rfl)
        rw [hbk] at this
        cases this
      have := stop_le_full hbn
      have := stop_le_full hr
      have := apart_of_not_below hbn hr hb hrb
      dsimp only at hstart hstop
      simp only [Node.start, Node.stop] at *
      omega
    have hne : b.id ≠ r.id :=
      id_ne_of_kind (p := (· == NodeKind.block)) hbn hr (by simp [hbk]) (by rw [hk]; rfl)
    obtain ⟨c, hc, hck, hcr⟩ := exists_statement_of_below h hbn hbk hr (by rw [hk]; rfl) hb hne
    have hcn := mem_nodes_of_child hbn hc
    have hcov := covers_of_below hcn hr hcr
    refine List.mem_flatMap.mpr ⟨c, ht.mem_of_overlap h hc hck ?_, ?_⟩
    · rw [ht.span]
      exact ⟨Nat.lt_of_le_of_lt hcov.1 (Nat.lt_of_lt_of_le hrs hstop),
        Nat.lt_of_le_of_lt hstart (Nat.lt_of_lt_of_le hrs hcov.2)⟩
    · exact (Node.mem_variableUses hcn).mpr ⟨hr, hcr, hk, hv⟩

end Selection.Touches

/-! ## No variable is left undeclared -/

namespace Extraction

theorem usedOutside_eq_false {name : Text} : usedOutside m span name = false ↔
    ∀ r ∈ m.bodyUses, name.sameName r.text → span.covers r.span := by
  rw [usedOutside, ← Node.bodyUses, List.any_eq_false]
  simp only [List.mem_filter, Bool.not_eq_true', and_imp, Text.sameName_comm name]
  refine forall₂_congr fun r _ => ?_
  cases span.covers r.span <;> simp

/-- The edits of an extraction: the call, a procedure with the parameters and the locals that are
planned, and the removal of what moves. -/
def Carries (name : Text) (p : Plan) (s : Span) (es : List Edit) : Prop :=
  ∃ call d body unit, es = [⟨s, call⟩, d] ++ Node.undeclare p.removed ∧
    d.text.Writes (declarationLines name p body unit)

theorem carries_edits? {ctx : Context} {t : SyntaxTree} {name : Text} {es : List Edit}
    (he : edits? ctx t m o s name = some es) : Carries name (plan m s) s.span es := by
  obtain ⟨d, hd, rfl⟩ := Option.map_eq_some_iff.mp he
  exact ⟨_, d, _, _, rfl, Placement.writes_insert? hd⟩

/-- Where the variables of a procedure are declared once some statements have left it. -/
structure Rehomes (m : Node) (s : Selection) : Prop where
  /-- No two declarations of the new procedure have the same name. -/
  differ : ((plan m s).parameters ++ (plan m s).moved).Pairwise fun v w =>
    v.name.sameName w.name = false
  /-- What the statements use is declared in the new procedure once and with its type. -/
  once : ∀ d ∈ declarations m, ∀ r ∈ s.uses, d.declared.name.sameName r.text →
    ∃ v : Variable, v.name = d.declared.name ∧ v.type = d.declared.type ∧
      ((plan m s).parameters ++ (plan m s).moved).filter (·.name.sameName v.name) = [v]
  /-- A local moves if the statements use it and no other statement does. -/
  moved : ∀ n ∈ m.localDeclarations, n ∈ (plan m s).removed ↔
    (∃ r ∈ s.uses, n.toVariable.name.sameName r.text) ∧
      ∀ r ∈ m.bodyUses, n.toVariable.name.sameName r.text → r ∈ s.uses
  /-- No deletion reaches into what declares a local that stays. -/
  kept : ∀ v, m.child? NodeKind.varSection = some v → ∀ n ∈ v.sectionDeclarations,
    n ∉ (plan m s).removed → ∀ p, Node.Declares v n p →
      ∀ e ∈ Node.undeclare (plan m s).removed, e.span.stop ≤ p.start ∨ p.stop ≤ e.span.start

theorem rehomes (h : (parse text).ok) (hs : Selection.at? (parse text) span = .ok (some s))
    (hm : m ∈ (parse text).nodes) (hu : NamesDiffer (declarations m)) : Rehomes m s where
  differ := names_differ m s
  once d hd r hr hn := declared_once hu hd hr hn
  moved n hn := by
    obtain ⟨u, b, f, l, ht⟩ := Selection.exists_touches hs
    rw [mem_removed_iff_used hu hn, usedOutside_eq_false]
    refine and_congr_right fun _ => forall₂_congr fun r hr => ?_
    obtain ⟨c, hc, _, hr⟩ := Node.of_mem_bodyUses hr
    obtain ⟨hr, _, hk, hv⟩ := (Node.mem_variableUses (mem_nodes_of_child hm hc)).mp hr
    rw [ht.mem_uses_iff h hr hk hv]
  kept v hv n hn hnr p hp := by
    obtain ⟨hvm, hvk⟩ := Node.mem_of_child? hv
    have hnm : n ∈ m.localDeclarations := by rw [Node.localDeclarations, hv]; exact hn
    refine Node.keeps_undeclare h (fun k hk => nodes_of_removed hm hk) (mem_nodes_of_child hm hvm)
      (by rw [hvk]; rfl) hn (fun k hk hi => hnr ?_) hp
    have hkn := mem_nodes.mp (nodes_of_removed hm hk)
    have hnn := mem_nodes.mp (varSection?_of_local hm hnm).1
    exact Node.ext_id (hkn.trans hnn.symm) hi ▸ hk

/-- Where nothing is wrong with a text, no variable is left undeclared by an extraction from a
procedure whose declarations have different names. -/
theorem rehomes_extract? {ctx : Context} {document : Nat} {r : ActionResult} {w : Progress}
    (h : (parse text).ok)
    (hr : ((extract? ctx document (parse text) span).run.run w).1 = .ok (some r)) :
    ∃ s m name es, Selection.at? (parse text) span = .ok (some s) ∧
      s.statements.head?.bind (·.method?) = some m ∧ r.change = Change.ofEdits document es ∧
      Carries name (plan m s) s.span es ∧ (NamesDiffer (declarations m) → Rehomes m s) := by
  obtain ⟨s, m, o, name, es, hs, hm, _, he, hre⟩ := exists_of_extract? (Prod.ext hr rfl)
  exact ⟨s, m, name, es, hs, hm, hre, carries_edits? he, rehomes h hs (inside_method h hs hm).1⟩

/-- No blank is needed between `var` and a quoted name, but one is between `var` and the name that
comes next. Where the first one moves, the word and the next name become the name of a return value,
and `b` stays in use without a declaration. -/
theorem extract?_undeclares :
    let text : Text := "codeunit 1 A \x7b procedure P() var\"a\":Integer;b:Integer;" ++
      "begin a := 1; b := 2; end; \x7d"
    let ctx : Context := ⟨.empty, .standard, .unknown⟩
    let es : List Edit := [⟨⟨60, 67⟩, "NewProcedure();"⟩, Edit.insert 81
      "\nlocal procedure NewProcedure()\nvar\n    \"a\": Integer;\nbegin\n    a := 1;\nend;\n",
      Edit.delete ⟨32, 44⟩]
    (parse text).ok ∧
      ((extract? ctx 0 (parse text) ⟨60, 67⟩).run.run ⟨.empty, .start .silent⟩).1 =
        .ok (some ⟨Change.ofEdits 0 es, some (0, 48)⟩) ∧
      ∃ t, Edit.apply es text = .ok t ∧ (parse t).ok ∧ ∃ m ∈ (parse t).nodes,
        m.kind.isMethod ∧ (m.bodyUses.any fun r => r.text == ("b" : Text)) ∧
          (declarations m).all fun d => !d.declared.name.sameName "b" := by
  intro text ctx es
  have hr : (parse text).ok ∧
      ((extract? ctx 0 (parse text) ⟨60, 67⟩).run.run ⟨.empty, .start .silent⟩).1.toOption =
        some (some ⟨Change.ofEdits 0 es, some (0, 48)⟩) := by decide +kernel
  have ha : Edit.apply es text = .ok (Edit.rewritten es 0 text) :=
    Edit.apply_apart (by decide) (by decide) (by decide)
  exact ⟨hr.1, eq_ok_of_toOption hr.2, _, ha, by decide +kernel⟩

end Extraction

/-! ## Names that are assigned to -/

namespace Node

/-- What an assignment to a node changes: the node, or what its first part stands for if it is a
member or an element of that. -/
inductive Designates : Node → Node → Prop
  | self {p : Node} : Designates p p
  | part {p c r : Node} : p.isOneOf [.memberAccessExpression, .elementAccessExpression] →
      p.childNodes.head? = some c → Designates c r → Designates p r

/-- The statement has a name as the target of its assignment or as its loop variable, directly or
through members and elements. -/
def Assigns (a r : Node) : Prop :=
  a.isOneOf [.assignmentStatement, .compoundAssignmentStatement, .forStatement,
    .forEachStatement] ∧ ∃ c, a.childNodes.head? = some c ∧ c.Designates r

theorem kind_of_isOneOf {ks : List NodeKind} (h : n.isOneOf ks) : ∃ k ∈ ks, n.kind = k := by
  obtain ⟨k, hk, he⟩ := List.mem_map.mp (List.contains_iff_mem.mp h)
  exact ⟨k, hk, he.symm⟩

variable {p c : Node}

theorem of_head?_childNodes (hp : p ∈ (parse text).nodes) (hc : p.childNodes.head? = some c) :
    c ∈ (parse text).nodes ∧ Below (parse text).entries p.id c.id ∧ c.parent = some p ∧
      c.ancestors.tail = p :: p.ancestors.tail ∧ c.isFirstBelow p := by
  have hm : c ∈ p.children := (List.mem_filter.mp (List.mem_of_head? hc)).1
  refine ⟨mem_nodes_of_child hp hm, below_of_mem_children hp hm, (parent_of_mem_children hp hm).2,
    ?_, ?_⟩
  · rw [ancestors_of_mem_children hp hm, List.tail_cons]
    conv_lhs => rw [ancestors]
    conv_rhs => rw [ancestors]
    rfl
  · simp [isFirstBelow, hc, same]

theorem Designates.spec (hd : p.Designates r) (hp : p ∈ (parse text).nodes)
    (hw : p.isWritten) (hv : p.standsForVariable) :
    r ∈ (parse text).nodes ∧ Below (parse text).entries p.id r.id ∧ r.isWritten ∧
      r.standsForVariable := by
  induction hd with
  | self => exact ⟨hp, .refl _, hw, hv⟩
  | @part p c r hk hc _ ih =>
      obtain ⟨hcn, hb, hcp, hca, hcf⟩ := of_head?_childNodes hp hc
      obtain ⟨k, hk, hpk⟩ := kind_of_isOneOf hk
      have hcw : c.isWritten := by
        rw [isWritten, hca, isWrittenIn, hpk]
        rcases List.mem_pair.mp hk with rfl | rfl
        all_goals exact Bool.and_eq_true_iff.mpr ⟨hcf, hw⟩
      have hcv : c.standsForVariable := by
        rw [standsForVariable, hcp]
        dsimp only
        rw [hpk]
        rcases List.mem_pair.mp hk with rfl | rfl
        · exact hcf
        · rfl
      obtain ⟨hr, hb', h⟩ := ih hcn hcw hcv
      exact ⟨hr, hb.trans hb', h⟩

theorem Assigns.spec {a : Node} (h : a.Assigns r) (ha : a ∈ (parse text).nodes) :
    r ∈ (parse text).nodes ∧ Below (parse text).entries a.id r.id ∧ r.isWritten ∧
      r.standsForVariable := by
  obtain ⟨hk, c, hc, hd⟩ := h
  obtain ⟨hcn, hb, hcp, hca, hcf⟩ := of_head?_childNodes ha hc
  obtain ⟨k, hk, hak⟩ := kind_of_isOneOf hk
  have hcw : c.isWritten := by
    rw [isWritten, hca, isWrittenIn, hak]
    simp only [List.mem_cons, List.not_mem_nil, or_false] at hk
    rcases hk with rfl | rfl | rfl | rfl
    all_goals exact hcf
  have hcv : c.standsForVariable := by
    rw [standsForVariable, hcp]
    dsimp only
    rw [hak]
    simp only [List.mem_cons, List.not_mem_nil, or_false] at hk
    rcases hk with rfl | rfl | rfl | rfl
    all_goals rfl
  obtain ⟨hr, hb', h⟩ := hd.spec hcn hcw hcv
  exact ⟨hr, hb.trans hb', h⟩

end Node

/-- The statements assign to a variable of a name. -/
def Selection.Assigns (s : Selection) (name : Text) : Prop :=
  ∃ n ∈ s.statements, ∃ a ∈ n.subtree, ∃ r, a.Assigns r ∧ r.kind = NodeKind.identifierName ∧
    name.sameName r.text

namespace Extraction

theorem exists_written {name : Text} (hs : Selection.at? (parse text) span = .ok (some s))
    (ha : s.Assigns name) : ∃ r ∈ s.uses, name.sameName r.text ∧ r.isWritten := by
  obtain ⟨u, b, f, l, ht⟩ := Selection.exists_touches hs
  obtain ⟨n, hn, a, ha, r, har, hrk, hr⟩ := ha
  have hnn := mem_nodes_of_child ht.block.1 (ht.mem_statements hn).1
  obtain ⟨han, hna⟩ := (mem_subtree hnn).mp ha
  obtain ⟨hrn, hb, hw, hv⟩ := har.spec han
  have hru : r ∈ n.variableUses :=
    (Node.mem_variableUses hnn).mpr ⟨hrn, hna.trans hb, hrk, hv⟩
  exact ⟨r, List.mem_flatMap.mpr ⟨n, hn, hru⟩, hr, hw⟩

/-- A parameter of the new procedure comes from a declaration of the old one, and is passed by
reference if the statements assign to it. -/
theorem parameter_spec {v : Variable} (hs : Selection.at? (parse text) span = .ok (some s))
    (hv : v ∈ (plan m s).parameters) :
    (∃ d ∈ declarations m, v.name = d.declared.name ∧ v.type = d.declared.type) ∧
      (v.canBeReference → s.Assigns v.name → v.byReference) := by
  obtain ⟨i, d, hi, hd, hf⟩ := mem_fates.mp (mem_parameters.mp hv)
  have hfv : v = (Variable.plain d.declared.name d.declared.type).withReference
      (d.declared.canBeReference &&
        (isWrittenAmong (declarations m) s.uses i || d.declared.isRecord)) := by
    rw [fate] at hf
    split at hf
    · split at hf
      · exact (Fate.parameter.inj hf).symm
      · cases hf
    · exact (Fate.parameter.inj hf).symm
  refine ⟨⟨d, List.mem_of_getElem? hd, by rw [hfv]; exact ⟨rfl, rfl⟩⟩, fun hc ha => ?_⟩
  obtain ⟨r, hr, hn, hw⟩ := exists_written hs ha
  obtain ⟨q, _, hq⟩ := mem_meanings.mp hi
  rw [hfv] at hn hc ⊢
  have hm := meaning?_of_sameName hq hd hn
  have hwi : isWrittenAmong (declarations m) s.uses i :=
    List.any_eq_true.mpr ⟨r, hr, by simp [hm, hw]⟩
  have hc : d.declared.canBeReference := hc
  simp [Variable.withReference, hc, hwi]

/-- What the statements assign to and can be passed by reference is passed by reference. -/
theorem byReference_extract? {ctx : Context} {document : Nat} {r : ActionResult} {w : Progress}
    (hr : ((extract? ctx document (parse text) span).run.run w).1 = .ok (some r)) :
    ∃ s m name es, Selection.at? (parse text) span = .ok (some s) ∧
      s.statements.head?.bind (·.method?) = some m ∧ r.change = Change.ofEdits document es ∧
      Carries name (plan m s) s.span es ∧
      ∀ v ∈ (plan m s).parameters,
        (∃ d ∈ declarations m, v.name = d.declared.name ∧ v.type = d.declared.type) ∧
          (v.canBeReference → s.Assigns v.name → v.byReference) := by
  obtain ⟨s, m, o, name, es, hs, hm, _, he, hre⟩ := exists_of_extract? (Prod.ext hr rfl)
  exact ⟨s, m, name, es, hs, hm, hre, carries_edits? he, fun v hv => parameter_spec hs hv⟩

/-- The statement `x := 1;` assigns to a local that is also used behind it. -/
theorem byReference_extract?_assigned :
    let text : Text :=
      "codeunit 1 A \x7b procedure P() var x: Integer; begin x := 1; x := x; end; \x7d"
    let ctx : Context := ⟨.empty, .standard, .unknown⟩
    let es : List Edit := [⟨⟨51, 58⟩, "NewProcedure(x);"⟩, Edit.insert 72
      "\nlocal procedure NewProcedure(var x: Integer)\nbegin\n    x := 1;\nend;\n"]
    ((extract? ctx 0 (parse text) ⟨51, 58⟩).run.run ⟨.empty, .start .silent⟩).1 =
        .ok (some ⟨Change.ofEdits 0 es, some (0, 51)⟩) ∧
      ∃ s m name fs, Selection.at? (parse text) ⟨51, 58⟩ = .ok (some s) ∧
        s.statements.head?.bind (·.method?) = some m ∧
        Change.ofEdits 0 es = Change.ofEdits 0 fs ∧
        Carries name (plan m s) s.span fs ∧
        ∀ v ∈ (plan m s).parameters,
          (∃ d ∈ declarations m, v.name = d.declared.name ∧ v.type = d.declared.type) ∧
            (v.canBeReference → s.Assigns v.name → v.byReference) := by
  intro text ctx es
  have hr := eq_ok_of_toOption (x := ((extract? ctx 0 (parse text) ⟨51, 58⟩).run.run
    ⟨.empty, .start .silent⟩).1) (a := some ⟨Change.ofEdits 0 es, some (0, 51)⟩) (by decide +kernel)
  exact ⟨hr, byReference_extract? hr⟩

end Extraction

/-! ## Names that are passed on -/

/-- The statements pass a variable of a name for a parameter by reference of a procedure of the
object, which they call by its name and with as many arguments as it has parameters. -/
def Selection.passesOn (s : Selection) (object : Node) (name : Text) : Bool :=
  (s.statements.flatMap (·.subtree)).any fun c =>
    match c.childNodes.head?, c.child? NodeKind.argumentList with
    | some callee, some list =>
      callee.is NodeKind.identifierName && (object.proceduresNamed callee.text).any fun p =>
        p.parameters.length == list.childNodes.length &&
          (p.parameters.zip list.childNodes).any fun (v, a) =>
            v.byReference && a.is NodeKind.identifierName && name.sameName a.text
    | _, _ => false

namespace Extraction

/-- Some parameter that can be passed by reference and that the statements pass on is passed by
value. -/
def losesChange (s : Selection) : Bool :=
  (s.statements.head?.bind (·.method?)).any fun m => m.object?.any fun o =>
    (plan m s).parameters.any fun v => v.canBeReference && s.passesOn o v.name && !v.byReference

/-- The procedures that the statements call are not looked at: `Q` changes `x`, but the new procedure
gets a copy of it. -/
theorem extract?_passes_copy :
    let text : Text := "codeunit 1 A \x7b procedure P() var x: Integer; begin Q(x); x := x; " ++
      "end; procedure Q(var y: Integer) begin y := 1; end; \x7d"
    let ctx : Context := ⟨.empty, .standard, .unknown⟩
    let es : List Edit := [⟨⟨51, 56⟩, "NewProcedure(x);"⟩, Edit.insert 117
      "\nlocal procedure NewProcedure(x: Integer)\nbegin\n    Q(x);\nend;\n"]
    (parse text).ok ∧
      ((extract? ctx 0 (parse text) ⟨51, 56⟩).run.run ⟨.empty, .start .silent⟩).1 =
        .ok (some ⟨Change.ofEdits 0 es, some (0, 51)⟩) ∧
      ∃ s, Selection.at? (parse text) ⟨51, 56⟩ = .ok (some s) ∧ losesChange s := by
  intro text ctx es
  have h : (parse text).ok ∧
      ((extract? ctx 0 (parse text) ⟨51, 56⟩).run.run ⟨.empty, .start .silent⟩).1.toOption =
        some (some ⟨Change.ofEdits 0 es, some (0, 51)⟩) ∧
      (Selection.at? (parse text) ⟨51, 56⟩).toOption.join.any losesChange := by decide +kernel
  obtain ⟨s, hs, hl⟩ := (Option.any_eq_true ..).mp h.2.2
  exact ⟨h.1, eq_ok_of_toOption h.2.1, s, eq_ok_of_toOption (Option.join_eq_some_iff.mp hs), hl⟩

end Extraction

end AlRefactor
