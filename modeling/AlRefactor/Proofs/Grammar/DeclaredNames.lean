import AlRefactor.Proofs.Grammar.DeclaringObjects
import AlRefactor.Proofs.Syntax.Standing

/-!
# The names of declarations

In a file without problems every procedure was read by the rule for procedures and every object by the rule
for objects. What declares something asks for a name before it reads one, so the names of variables,
parameters and return values are single lexemes of the kinds of names. Other identifiers, such as those
behind a dot, can be keywords.
-/

namespace AlRefactor

open AlRefactor.Tree

namespace Grammar

open Production

variable {c : Cursor}

/-! ## How scopes were read -/

/-- What no rule makes, with more leaves than some trees have. -/
def unruly (ts : List Tree) : Tree :=
  .node TokenKind.error ((⟨.error, []⟩ :: leavesOf ts).map .leaf)

theorem leaves_unruly (ts : List Tree) : (unruly ts).leaves = ⟨.error, []⟩ :: leavesOf ts :=
  leavesOf_map_leaf _

section Scope

variable {ls : List Lexeme} {o : Hole} {k : Kind} {cs : List Tree}
  (hn : (declarations.read ⟨0, ls⟩).problems = []) (hm : (declarations.read ⟨0, ls⟩).made = o.plug (.node k cs))
include hn hm

/-- No scope of a file without problems can be swapped for one that no rule makes. -/
theorem not_swaps_unruly : ¬ Swaps (.node k cs) (.node k [unruly cs]) := fun h => by
  obtain ⟨hmade, hp⟩ := (reads_declarations h hn hm).outcome 0
  have hr := (yields_declarations _ hp).1
  rw [hmade] at hr
  exact (Hole.everywhere_plug hr).2.1.1

/-- Every procedure was read as one: otherwise anything could stand for it. -/
theorem exists_read_method (hk : k.isMethod) : ∃ c, (method.read c).problems = [] ∧
    (method.read c).made = [.node k cs] := by
  by_contra hno
  refine not_swaps_unruly hn hm (.method ⟨hk, ?_, ?_, fun _ hp hmade => absurd ⟨_, hp, hmade⟩ hno⟩)
  · simp [leaves, leavesOf, leaves_unruly]
  · simp [leaves, leavesOf, leaves_unruly]

theorem exists_read_object (hk : k.isObject) : ∃ (j : NodeKind) (c : Cursor), c.kind = .ident ∧
    ((object j).read c).problems = [] ∧ ((object j).read c).made = [.node k cs] := by
  cases k with
  | token => cases hk
  | node j =>
      by_contra hno
      refine not_swaps_unruly hn hm (.object hk ?_ fun c hc hp hmade => absurd ⟨j, c, hc, hp, hmade⟩ hno)
      simp [leavesOf, leaves_unruly]

end Scope

/-! ## Names -/

/-- What makes leaves only has made one of each lexeme. -/
theorem exists_leaves_of_tokens {p : Production} (h : p.YieldsTokens) (hn : (p.read c).problems = []) :
    ∃ ls : List Lexeme, (p.read c).made = ls.map Tree.leaf := by
  obtain ⟨hr, hs⟩ := h c hn
  have hk := Pattern.all_symbols (p := fun s => s.kind.isToken) rfl hs
  generalize (p.read c).made = ts at hr hk
  induction ts with
  | nil => exact ⟨[], rfl⟩
  | cons t ts ih =>
      obtain ⟨ht, hts⟩ := List.forall_mem_cons.mp hk
      obtain ⟨ls, rfl⟩ := ih hr.2 hts
      cases t with
      | leaf l => exact ⟨l :: ls, rfl⟩
      | node k us =>
          rw [kind_symbol] at ht
          cases k with
          | token => exact hr.1.1.elim
          | node => cases ht

/-- An identifier is one lexeme, of a kind of names. -/
def Named (k : Kind) (ts : List Tree) : Prop :=
  k = NodeKind.identifierName → ∃ l : Lexeme, l.kind.isName ∧ ts = [.leaf l]

/-- What is read without a problem has no identifiers but names. -/
def Names (p : Production) (c : Cursor) : Prop :=
  (p.read c).problems = [] → EverywhereAll Named (p.read c).made

namespace Names

variable {p q : Production}

theorem skip : Names skip c := fun _ => trivial

theorem take : Names take c := fun _ => (makes_take (P := Named)).read

theorem report {problem : Problem} : Names (report problem) c := fun _ => trivial

theorem append (hp : Names p c) (hq : Names q (p.read c).rest) : Names (p ++ q) c := fun h =>
  have ⟨h, h'⟩ := List.append_eq_nil_iff.mp h
  everywhereAll_append.mpr ⟨hp h, hq h'⟩

theorem choose {test : Cursor → Bool} (hp : test c = true → Names p c) (hq : Names q c) :
    Names (choose test p q) c := by
  rw [Names, read_choose]
  split
  · exact hp ‹_›
  · exact hq

theorem whileAt {test : Cursor → Bool} (hp : ∀ d, test d = true → Names p d) : Names (whileAt test p) c :=
  whileAt_induction (I := fun _ ts _ => EverywhereAll Named ts) (fun _ => trivial)
    (fun c _ _ ht hn hs => everywhereAll_append.mpr ⟨hp c ht hn, hs⟩) c

theorem mark {kind : Cursor → Kind} (hk : ∀ d, kind d ≠ NodeKind.identifierName) (h : Names (p ++ q) c) :
    Names (mark p kind q) c :=
  fun hn => ⟨⟨fun hi => absurd hi (hk _), h hn⟩, trivial⟩

theorem node {k : Kind} (hk : k ≠ NodeKind.identifierName) (h : Names p c) : Names (node k p) c :=
  .mark (fun _ => hk) (.append h .skip)

/-- Among tokens there are no identifiers. -/
theorem of_tokens (h : p.YieldsTokens) : Names p c := by
  intro hn
  obtain ⟨ls, hls⟩ := exists_leaves_of_tokens h hn
  rw [hls]
  exact everywhere_leaves _ ls

theorem takeIf (k : TokenKind) : Names (takeIf k) c := .choose (fun _ => .take) .skip

theorem require (k : TokenKind) : Names (require k) c := .choose (fun _ => .take) .report

theorem takeThen {k : TokenKind} (h : ∀ d, Names p d) : Names (takeThen k p) c :=
  .choose (fun _ => .append .take (h _)) .skip

theorem name (h : c.kind.isName = true) : Names name c := by
  obtain ⟨m, _ | ⟨l, ls⟩⟩ := c
  · cases h
  · exact fun _ => ⟨⟨fun _ => ⟨l, h, rfl⟩, trivial, trivial⟩, trivial⟩

theorem nameOr (missing : Problem) : Names (nameOr missing) c := .choose name .report

/-! ### Declarations -/

theorem attributes : Names attributes c :=
  .whileAt fun _ _ => .node (by decide) (.of_tokens .balanced)

theorem typeReference : Names typeReference c :=
  .node (by decide) (.of_tokens fun _ => yieldsTokens_typeUpTo _ _)

theorem typed : Names typed c := .choose (fun _ => .append .take .typeReference) .report

theorem parameter : Names parameter c :=
  .node (by decide) (.append (.append (.takeIf _) (.nameOr _)) .typed)

theorem noParameter : Names noParameter c := .choose (fun _ => .skip) .report

theorem parameters : Names parameters c := by
  have hp {test : Cursor → Bool} {d : Cursor} :
      Names (Production.whileAt test (Production.take ++ Grammar.parameter)) d :=
    .whileAt fun _ _ => .append .take .parameter
  have hn {d : Cursor} : Names (Production.takeThen .semicolon Grammar.noParameter) d :=
    .takeThen fun _ => .noParameter
  unfold Grammar.parameters
  exact .append (.append .parameter hp) hn

theorem parameterList : Names parameterList c :=
  .node (by decide) (.append (.append .take (.choose (fun _ => .parameters) .noParameter)) (.require _))

theorem returnValue : Names returnValue c :=
  .node (by decide) (.append (.append (.choose name .skip) .take) .typeReference)

theorem listedName (h : c.kind.isName = true) : Names listedName c := .node (by decide) (.name h)

theorem furtherNames : Names furtherNames c := by
  refine .append (.whileAt fun d hd => .append .take (.listedName ?_)) (.takeThen fun _ => .report)
  rw [kind_rest_take]
  exact (Bool.and_eq_true_iff.mp hd).2

/-- Behind the attributes of a variable there is a name. -/
theorem variableDeclaration (h : atVariable c = true) : Names variableDeclaration c := by
  intro hn
  obtain ⟨-, hk, -⟩ := rest_attributes_of_atVariable h (List.append_eq_nil_iff.mp hn).1
  revert hn
  unfold Grammar.variableDeclaration
  refine Names.mark (fun d => ?_) (.append .attributes ?_)
  · split <;> decide
  · generalize (Grammar.attributes.read c).rest = d at hk
    exact .append (.append (.choose (fun _ => .append (.listedName hk) .furtherNames) (.name hk)) .typed)
      (.require _)

theorem varSection {k : NodeKind} (hk : k ≠ .identifierName) : Names (varSection k) c :=
  .node (fun h => hk (Kind.node.inj h)) (.append (.append (.takeIf _) .take) (.whileAt fun _ => .variableDeclaration))

end Names

/-! ## Scopes -/

/-- The parts of a scope that declare something. -/
def declaringParts : List Kind :=
  [NodeKind.parameterList, .returnValue, .varSection, .globalVarSection].map .node

/-- Where a production reads without a problem, all that declares something among what it made has names. -/
def NamesParts (p : Production) (c : Cursor) : Prop :=
  (p.read c).problems = [] → ∀ u ∈ (p.read c).made, u.kind ∈ declaringParts → Everywhere Named u

namespace NamesParts

variable {p q : Production}

theorem of_names (h : Names p c) : NamesParts p c := fun hn _ hu _ => Hole.everywhere_of_mem (h hn) hu

theorem of_kinds (h : (p.read c).problems = [] → ∀ u ∈ (p.read c).made, u.kind ∉ declaringParts) : NamesParts p c :=
  fun hn u hu hk => absurd hk (h hn u hu)

theorem skip : NamesParts skip c := of_names .skip

theorem append (hp : NamesParts p c) (hq : NamesParts q (p.read c).rest) : NamesParts (p ++ q) c := by
  intro hn u hu
  obtain ⟨hn, hn'⟩ := List.append_eq_nil_iff.mp hn
  exact (List.mem_append.mp hu).elim (hp hn u) (hq hn' u)

theorem choose {test : Cursor → Bool} (hp : NamesParts p c) (hq : NamesParts q c) :
    NamesParts (choose test p q) c := by
  rw [NamesParts, read_choose]
  split
  · exact hp
  · exact hq

theorem whileAt {test : Cursor → Bool} (hp : ∀ d, NamesParts p d) : NamesParts (whileAt test p) c :=
  whileAt_induction (I := fun _ ts _ => ∀ u ∈ ts, u.kind ∈ declaringParts → Everywhere Named u)
    (fun _ => List.forall_mem_nil _) (fun c _ _ _ hn hs u hu => (List.mem_append.mp hu).elim (hp c hn u) (hs u)) c

/-- What a node of another kind has below it does not matter. -/
theorem node {k : Kind} (hk : k ∉ declaringParts) : NamesParts (node k p) c := by
  rintro - u hu hu'
  rw [read_node] at hu
  rw [List.mem_singleton.mp hu] at hu'
  exact absurd hu' hk

theorem methodBody : NamesParts methodBody c :=
  .choose (.append (.node (by decide)) (.of_names (.takeIf _))) .skip

/-- The parts of a procedure. -/
theorem method (hn : (method.read c).problems = []) : ∃ k cs, (method.read c).made = [.node k cs] ∧
    ∀ u ∈ cs, u.kind ∈ declaringParts → Everywhere Named u := by
  rw [method_eq, read_mark] at hn ⊢
  refine ⟨_, _, rfl, ?_⟩
  have hs : Names methodStart c := .append .attributes (.whileAt fun _ _ => .take)
  have hhead {d : Cursor} : Names methodHead d := .append (.append (.append (.nameOr _)
    (.choose (fun _ => .parameterList) .report)) (.choose (fun _ => .returnValue) .skip)) (.takeIf _)
  have hvars {d : Cursor} : Names methodVariables d := .choose (fun _ => .varSection (by decide)) .skip
  have ht : NamesParts methodTail (methodStart.read c).rest := by
    intro hp
    obtain ⟨-, hread⟩ := read_methodTail hp
    rw [hread] at hp ⊢
    exact append (.of_names .take) (.append (.of_names hhead) (.append (.of_names hvars) .methodBody)) hp
  exact append (.of_names hs) ht hn

theorem member : NamesParts member c := by
  rw [NamesParts, member_eq]
  have hcase := memberCase (memberUpTo c.ahead.length) (memberUpTo c.ahead.length) c
  generalize memberForm (memberUpTo c.ahead.length) c.kind (c.peek 1) = p at hcase
  cases hcase with
  | globals => exact of_names (.varSection (by decide))
  | method =>
      intro hn u hu hu'
      obtain ⟨j, us, hj, hmade⟩ := made_method hn
      rw [hmade] at hu
      rw [List.mem_singleton.mp hu] at hu'
      have hno : ∀ j ∈ [NodeKind.methodDeclaration, .triggerDeclaration], .node j ∉ declaringParts := by decide
      exact absurd hu' (hno j hj)
  | semicolon => exact of_names .take
  | property => exact node (by decide)
  | part => exact node (by decide)
  | unreadable => exact fun hn => absurd hn (List.cons_ne_nil _ _)

/-- The parts of an object. -/
theorem object {k : NodeKind} (hc : c.kind = .ident) (hn : ((object k).read c).problems = []) :
    ∃ cs, ((object k).read c).made = [.node k cs] ∧ ∀ u ∈ cs, u.kind ∈ declaringParts → Everywhere Named u := by
  rw [read_object] at hn ⊢
  refine ⟨_, rfl, ?_⟩
  have hh : NamesParts header c := .of_kinds fun hn => kinds_of_yields (yields_header hc) rfl hn
  have hm {d : Cursor} : NamesParts (memberList Grammar.member) d :=
    .choose (.append (.of_names .take) (.append (.whileAt fun _ => .member) (.of_names (.require _)))) .skip
  exact append hh hm hn

end NamesParts

/-- In a file without problems whatever a scope declares has a name. -/
theorem names_scope {ls : List Lexeme} {o : Hole} {k : Kind} {cs : List Tree}
    (hn : (declarations.read ⟨0, ls⟩).problems = []) (hm : (declarations.read ⟨0, ls⟩).made = o.plug (.node k cs))
    (hk : k.isMethod ∨ k.isObject) : ∀ u ∈ cs, u.kind ∈ declaringParts → Everywhere Named u := by
  rcases hk with hk | hk
  · obtain ⟨c, hc, hmade⟩ := exists_read_method hn hm hk
    obtain ⟨j, us, hj, hu⟩ := NamesParts.method hc
    rwa [(of_singleton (hmade.symm.trans hj)).2]
  · obtain ⟨j, c, hi, hc, hmade⟩ := exists_read_object hn hm hk
    obtain ⟨us, hj, hu⟩ := NamesParts.object hi hc
    rwa [(of_singleton (hmade.symm.trans hj)).2]

end Grammar

end AlRefactor
