import AlRefactor.Proofs.Declaration.Objects
import AlRefactor.Proofs.Edit.Insertion

/-!
# New procedures among those of their access

A procedure follows the current one, or goes where the procedures of its access stay sorted, if the one
it is put before starts its line.
-/

namespace AlRefactor

open SyntaxTree

/-- What procedures are sorted by. -/
def Text.sortKey (t : Text) : Text := Text.lowercase t.unquote

namespace Node

def sortKey (n : Node) : Text := (n.name.getD []).sortKey

/-- The procedures of an object that have an access. -/
def peers (o : Node) (access : Access) : List Node :=
  (o.childrenOf NodeKind.methodDeclaration).filter (·.access? == some access)

end Node

namespace Placement

variable {text : Text} {o c b : Node} {name : Text} {access : Access} {current : Option Node}
  {lines : List Text} {e : Edit}

/-- No later key is smaller. -/
def Sorted (keys : List Text) : Prop := keys.Pairwise fun a b => ¬ b < a

/-- Before the first key that is larger a key keeps the order. -/
theorem sorted_insert {xs ys : List Text} {k : Text} (h : Sorted (xs ++ ys))
    (hx : ∀ x ∈ xs, ¬ k < x) (hy : ∀ y ∈ ys.head?, k < y) : Sorted (xs ++ k :: ys) := by
  obtain ⟨hxs, hys, hxy⟩ := List.pairwise_append.mp h
  refine List.pairwise_append.mpr ⟨hxs, List.pairwise_cons.mpr ⟨fun y hm hlt => ?_, hys⟩, ?_⟩
  · cases ys with
    | nil => cases hm
    | cons z ys =>
        have hz := hy z rfl
        rcases List.mem_cons.mp hm with rfl | hm
        · exact List.lt_asymm hz hlt
        · exact (List.pairwise_cons.mp hys).1 y hm (List.lt_trans hlt hz)
  · intro x hm y hyk
    rcases List.mem_cons.mp hyk with rfl | hyk
    · exact hx x hm
    · exact hxy x hm y hyk

/-- What a procedure is put beside, if no procedure of its access asks for it. -/
theorem anchor?_eq (p : Placement) : p.anchor? o current name access =
    (match p with
      | .sortedByName =>
        ((o.peers access).find? fun m : Node => decide (name.sortKey < m.sortKey)).map Anchor.before
      | .afterCurrent =>
        (current.filter fun m : Node => m.access? == some access).map Anchor.behind).or
    (((o.peers access).getLast?.map Anchor.behind).or
      ((o.lastChild? TokenKind.rBrace).map Anchor.closing)) := by
  have hk : (fun m : Node => (m.name.map fun n =>
      decide (Text.lowercase name.unquote < Text.lowercase n.unquote)).getD false) =
      fun m : Node => decide (name.sortKey < m.sortKey) := by
    funext m
    rw [Node.sortKey]
    cases m.name with
    | none => exact (decide_eq_false (List.not_lt_nil _)).symm
    | some n => rfl
  cases p with
  | afterCurrent => rfl
  | sortedByName => rw [← hk]; rfl

section

variable (h : (parse text).ok) (ho : o ∈ (parse text).nodes) (hok : o.kind.isObject)
  (hb : o.lastChild? TokenKind.rBrace = some b)

include ho in
theorem peers_apart (access : Access) :
    (o.peers access).Pairwise fun m n => m.stop ≤ n.start := by
  have hs : (o.peers access).Sublist o.children :=
    List.filter_sublist.trans List.filter_sublist
  exact (ranged ho).apart.sublist hs

theorem mem_children_of_peers (hm : c ∈ o.peers access) : c ∈ o.children :=
  (Node.mem_of_childrenOf (List.mem_filter.mp hm).1).1

include h ho in
/-- A procedure that starts its line parts the procedures of its access at the start of this line. -/
theorem peers_before {xs ys : List Node} {y : Node} (hp : o.peers access = xs ++ y :: ys) (hl : y.startsLine) :
    (∀ x ∈ xs, x.stop ≤ y.lineStart) ∧ ∀ z ∈ y :: ys, y.lineStart ≤ z.start := by
  have hy : y ∈ o.children := mem_children_of_peers (by rw [hp]; simp)
  have hyn := mem_nodes_of_child ho hy
  have hapart := peers_apart ho access
  rw [hp] at hapart
  obtain ⟨-, hys, hxs⟩ := List.pairwise_append.mp hapart
  refine ⟨fun x hx => ?_, fun z hz => Nat.le_trans (Node.lineStart_le hyn) ?_⟩
  · have hxo : x ∈ o.children := mem_children_of_peers (by rw [hp]; simp [hx])
    exact (solid h (mem_nodes_of_child ho hxo) (Node.id_ne_zero ho hxo)).stop_le (Node.bare_lineStart hyn hl)
      (Node.seam_lineStart h hyn (Node.id_ne_zero ho hy)) (hxs x hx y List.mem_cons_self)
  · rcases List.mem_cons.mp hz with rfl | hz
    · exact Nat.le_refl _
    · exact Nat.le_trans (ranged hyn).start_le_stop ((List.pairwise_cons.mp hys).1 z hz)

include ho in
theorem peers_behind {l : Node} (hl : (o.peers access).getLast? = some l) :
    ∀ x ∈ o.peers access, x.stop ≤ l.full.stop := by
  have hln := mem_nodes_of_child ho (mem_children_of_peers (List.mem_of_getLast? hl))
  have hapart := peers_apart ho access
  obtain ⟨init, hi⟩ := List.getLast?_eq_some_iff.mp hl
  rw [hi] at hapart ⊢
  intro x hx
  rcases List.mem_append.mp hx with hx | hx
  · calc x.stop ≤ l.start := (List.pairwise_append.mp hapart).2.2 x hx l List.mem_cons_self
      _ ≤ l.stop := (ranged hln).start_le_stop
      _ ≤ l.full.stop := stop_le_full hln
  · rw [List.mem_singleton.mp hx]
    exact stop_le_full hln

include h ho hok hb in
/-- The procedure is written between two tokens of the object. -/
theorem exists_adds (p : Placement) (current : Option Node) (name : Text) (access : Access)
    (lines : List Text) (hc : ∀ m ∈ current, m ∈ o.children) :
    ∃ e, p.insert? o current name access lines = some e ∧ e.Adds text ∧ e.text.Writes lines ∧
      Edit.apply [e] text = .ok (Edit.rewritten [e] 0 text) := by
  obtain ⟨e, he⟩ : ∃ e, p.insert? o current name access lines = some e := exists_insert? hok hb
  have ha : e.Adds text := (beside_insert? ho (fun m hm =>
    ⟨mem_nodes_of_child ho (hc m hm), Node.id_ne_zero ho (hc m hm)⟩) he).adds h
  exact ⟨e, he, ha, writes_insert? he, Edit.apply_adds (by simpa using ha)⟩

include ho hok in
/-- A procedure that goes behind another one directly follows it: all else of the object ends before
that one or starts behind the new one. -/
theorem place_behind {p : Placement} (hc : c ∈ o.children)
    (ha : p.anchor? o current name access = some (.behind c))
    (he : p.insert? o current name access lines = some e) :
    e.span.start = c.full.stop ∧
      ∀ m ∈ o.children, m = c ∨ m.stop ≤ c.start ∨ e.span.start ≤ m.start := by
  rw [insert?, if_pos hok, ha] at he
  obtain rfl := Option.some.inj he
  refine ⟨rfl, fun m hm => ?_⟩
  have hmn := mem_nodes_of_child ho hm
  by_cases hmc : m = c
  · exact .inl hmc
  have hid := (parent_of_mem_children ho hc).1
  rcases child_beside_below ho hmn hc (below_of_mem_children ho hm)
    (Nat.ne_of_lt (parent_of_mem_children ho hm).1) with hb | hle | hle
  · -- No child of a node stands below another one.
    have hne : c.id ≠ m.id := fun hi => hmc (eq_of_id hmn (mem_nodes_of_child ho hc) hi.symm)
    have hco := below_of_below_child (mem_nodes_of_child ho hc) ho hm hb hne
    have := ((below_iff_id (mem_nodes_of_child ho hc)).mp hco).1
    omega
  · exact .inr (.inr hle)
  · exact .inr (.inl (Nat.le_trans (stop_le_full hmn) hle))

include h ho hok hb in
/-- Behind the current procedure, if it has the access of the new one and is one of the object. -/
theorem insert?_current (hc : c ∈ o.children) (hk : c.access? = some access) :
    ∃ e, afterCurrent.insert? o (some c) name access lines = some e ∧ e.Adds text ∧
      e.text.Writes lines ∧ e.span.start = c.full.stop ∧
      ∀ m ∈ o.children, m = c ∨ m.stop ≤ c.start ∨ e.span.start ≤ m.start := by
  obtain ⟨e, he, hadds, hw, -⟩ := exists_adds h ho hok hb afterCurrent (some c) name access lines
    fun m hm => Option.some.inj hm ▸ hc
  have ha : afterCurrent.anchor? o (some c) name access = some (.behind c) := by
    rw [anchor?_eq]
    simp [hk]
  exact ⟨e, he, hadds, hw, place_behind ho hok hc ha he⟩

include h ho hok hb in
/-- Among the procedures of its access the new one goes where they stay sorted. If the one that it goes
before starts its line, those with a name that is not larger end before it, and the others start
behind it. -/
theorem insert?_sorted (hc : ∀ m ∈ current, m ∈ o.children) : ∃ e xs ys,
    sortedByName.insert? o current name access lines = some e ∧ e.Adds text ∧ e.text.Writes lines ∧
    o.peers access = xs ++ ys ∧
    (Sorted ((o.peers access).map (·.sortKey)) →
      Sorted (xs.map (·.sortKey) ++ name.sortKey :: ys.map (·.sortKey))) ∧
    ((∀ y ∈ ys.head?, y.startsLine) →
      (∀ x ∈ xs, x.stop ≤ e.span.start) ∧ ∀ y ∈ ys, e.span.start ≤ y.start) := by
  obtain ⟨e, he, hadds, hw, -⟩ := exists_adds h ho hok hb sortedByName current name access lines hc
  cases hf : (o.peers access).find? fun m : Node => decide (name.sortKey < m.sortKey) with
  | some y =>
      obtain ⟨hy, xs, ys, hxy, hx⟩ := List.find?_eq_some_iff_append.mp hf
      have ha : sortedByName.anchor? o current name access = some (.before y) := by
        rw [anchor?_eq, hf]
        rfl
      have hs : e.span.start = y.lineStart := by
        rw [insert?, if_pos hok, ha] at he
        obtain rfl := Option.some.inj he
        rfl
      refine ⟨e, xs, y :: ys, he, hadds, hw, hxy, fun hs => ?_, fun hl => hs ▸ ?_⟩
      · rw [hxy, List.map_append] at hs
        refine sorted_insert hs (fun k hk => ?_) fun k hk => ?_
        · obtain ⟨x, hxm, rfl⟩ := List.mem_map.mp hk
          simpa using hx x hxm
        · obtain rfl : y.sortKey = k := by simpa using hk
          simpa using hy
      · exact peers_before h ho hxy (hl y rfl)
  | none =>
      have hx := List.find?_eq_none.mp hf
      refine ⟨e, o.peers access, [], he, hadds, hw, (List.append_nil _).symm, fun hs => ?_,
        fun _ => ⟨?_, fun _ hn => (List.not_mem_nil hn).elim⟩⟩
      · refine sorted_insert (by rwa [List.map_nil, List.append_nil]) (fun k hk => ?_)
          fun k hk => by cases hk
        obtain ⟨x, hxm, rfl⟩ := List.mem_map.mp hk
        simpa using hx x hxm
      · intro x hxm
        obtain ⟨l, hl⟩ : ∃ l, (o.peers access).getLast? = some l :=
          ⟨_, List.getLast?_eq_some_getLast (List.ne_nil_of_mem hxm)⟩
        have hlm := mem_children_of_peers (List.mem_of_getLast? hl)
        have ha : sortedByName.anchor? o current name access = some (.behind l) := by
          rw [anchor?_eq, hf, hl]
          rfl
        rw [(place_behind ho hok hlm ha he).1]
        exact peers_behind ho hl x hxm

end

/-- The procedure that a new one goes before may share its line with the object: then the new one
is written outside of the object. -/
theorem insert?_outside :
    let text : Text := "codeunit 1 A \x7b local procedure B() begin end; \x7d".toList
    let e := Edit.insert 0 "local procedure A()\nbegin\nend;\n\n".toList
    (parse text).ok ∧
      (∃ o ∈ (parse text).nodes, o.kind = NodeKind.codeunitObject ∧
        sortedByName.insert? o none "A".toList .local
          ["local procedure A()".toList, "begin".toList, "end;".toList] = some e) ∧
      ∃ t, Edit.apply [e] text = .ok t ∧ (parse t).ok = false := by
  intro text e
  have hn : (parse text).ok ∧ ∃ o ∈ (parse text).nodes, o.kind = NodeKind.codeunitObject ∧
      sortedByName.insert? o none "A".toList .local
        ["local procedure A()".toList, "begin".toList, "end;".toList] = some e := by
    decide +kernel
  have ha : Edit.apply [e] text = .ok (Edit.rewritten [e] 0 text) :=
    Edit.apply_apart (by decide) (by decide) (by decide)
  exact ⟨hn.1, hn.2, _, ha, by decide +kernel⟩

end Placement

end AlRefactor
