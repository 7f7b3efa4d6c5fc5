import Mathlib.Data.List.Nodup
import AlRefactor.Session.Refactoring

/-!
# What a refactoring gets and how it ends

A tree is kept for a version of a document. As long as no kept version is ahead of its document, the
tree that a refactoring gets for a document is the tree of the document's text. A computation is
described by what holds of its result, and by whether it may refuse to give one; faults are never
allowed.
-/

namespace AlRefactor

open SyntaxTree

variable {w v : Workspace} {d : Document} {id : Nat} {text : Text}

/-! ## Documents -/

namespace Workspace

/-- The number of a document is its place in the list. -/
def Numbered (w : Workspace) : Prop := w.documents.map (·.id) = List.range w.size

theorem numbered_empty : empty.Numbered := rfl

theorem Numbered.add (h : w.Numbered) (uri text : Text) : (w.add uri text).Numbered := by
  have hs : (w.add uri text).size = w.size + 1 := List.length_append
  rw [Numbered, hs, List.range_succ, ← h]
  exact List.map_append

theorem Numbered.update? (h : w.Numbered) (hv : w.update? id text = some v) : v.Numbered := by
  obtain ⟨_, _, rfl⟩ := Option.map_eq_some_iff.mp hv
  have hm : (w.documents.map fun d =>
      if d.id == id then { d with text, version := d.version + 1 } else d).map (·.id) =
        w.documents.map (·.id) := by
    rw [List.map_map]
    refine List.map_congr_left fun d _ => ?_
    dsimp only [Function.comp]
    split <;> rfl
  rw [Numbered, hm, h, Workspace.size, Workspace.size, List.length_map]

theorem mem_of_get? (h : w.get? id = some d) : d ∈ w.documents ∧ d.id = id :=
  ⟨List.mem_of_find?_eq_some h, by simpa using List.find?_some h⟩

/-- Every document is found by its number. -/
theorem Numbered.get? (h : w.Numbered) (hd : d ∈ w.documents) : w.get? d.id = some d := by
  cases hf : w.get? d.id with
  | none => simpa using List.find?_eq_none.mp hf d hd
  | some e =>
      obtain ⟨he, hi⟩ := mem_of_get? hf
      have hn : (w.documents.map (·.id)).Nodup := h ▸ List.nodup_range
      rw [List.inj_on_of_nodup_map hn he hd hi]

/-- The trees of all documents. -/
def trees (w : Workspace) : Trees := w.documents.map fun d => (d.id, parse d.text)

end Workspace

/-! ## Kept trees -/

namespace TreeSource

variable {s : TreeSource}

/-- No tree is kept for a version that its document does not have yet, and one for the version that it
has is the tree of its text. -/
def Coherent (s : TreeSource) (w : Workspace) : Prop :=
  ∀ id c, s.cache.entries.lookup id = some c →
    ∃ d, w.get? id = some d ∧ c.version ≤ d.version ∧ (c.version = d.version → c.tree = parse d.text)

theorem coherent_empty (w : Workspace) : empty.Coherent w := nofun

theorem Coherent.add (h : s.Coherent w) (uri text : Text) : s.Coherent (w.add uri text) := by
  intro id c hc
  obtain ⟨d, hd, hv⟩ := h id c hc
  refine ⟨d, ?_, hv⟩
  rw [Workspace.get?, Workspace.add, List.find?_append]
  exact Option.or_eq_some_iff.mpr (.inl hd)

theorem Coherent.update? (h : s.Coherent w) (hv : w.update? id text = some v) : s.Coherent v := by
  obtain ⟨_, _, rfl⟩ := Option.map_eq_some_iff.mp hv
  intro j c hc
  obtain ⟨d, hd, hle, ht⟩ := h j c hc
  have hi := (Workspace.mem_of_get? hd).2
  refine ⟨if d.id == id then { d with text, version := d.version + 1 } else d, ?_, ?_⟩
  · have hs : ((fun d : Document => d.id == j) ∘ fun d : Document =>
        if d.id == id then { d with text, version := d.version + 1 } else d) = fun d => d.id == j := by
      funext d
      dsimp only [Function.comp]
      split <;> rfl
    rw [Workspace.get?, List.find?_map, hs]
    exact congrArg (Option.map _) hd
  · split
    · exact ⟨by dsimp only; omega, fun hv => by dsimp only at hv; omega⟩
    · exact ⟨hle, ht⟩

theorem lookup_invalidate (c : TreeCache) (document id : Nat) :
    (c.invalidate document).entries.lookup id =
      if id = document then none else c.entries.lookup id := by
  rw [TreeCache.invalidate]
  dsimp only
  induction c.entries with
  | nil => exact (ite_self none).symm
  | cons e es ih =>
      obtain ⟨k, t⟩ := e
      rw [List.filter_cons, List.lookup_cons]
      cases hi : id == k with
      | true =>
          obtain rfl : id = k := by simpa using hi
          by_cases hk : id = document
          · simpa [hk] using ih
          · simp [hk]
      | false =>
          split
          · rw [List.lookup_cons, hi]
            exact ih
          · exact ih

theorem lookup_insert (c : TreeCache) (document id : Nat) (t : CachedTree) :
    (c.insert document t).entries.lookup id =
      if id = document then some t else c.entries.lookup id := by
  rw [TreeCache.insert, List.lookup_append, lookup_invalidate]
  by_cases hi : id = document
  · simp [hi]
  · have hb : (id == document) = false := by simpa using hi
    simp [hi, hb, List.lookup_cons]

/-- The tree of a document is that of its text. -/
theorem Coherent.tree (h : s.Coherent w) (hd : w.get? d.id = some d) :
    (s.tree d).1.tree = parse d.text ∧ (s.tree d).2.Coherent w := by
  unfold TreeSource.tree
  split
  · rename_i t ht
    obtain ⟨hl, hv⟩ := Option.filter_eq_some_iff.mp ht
    obtain ⟨e, he, _, hp⟩ := h _ _ hl
    obtain rfl := Option.some.inj (he.symm.trans hd)
    exact ⟨hp (by simpa using hv), h⟩
  · refine ⟨rfl, fun id c hc => ?_⟩
    rw [lookup_insert] at hc
    split at hc
    · rename_i hi
      cases hc
      exact ⟨d, hi ▸ hd, Int.le_refl _, fun _ => rfl⟩
    · exact h id c hc

theorem Coherent.trees (h : s.Coherent w) {ds : List Document}
    (hd : ∀ d ∈ ds, w.get? d.id = some d) :
    (s.trees ds).1 = ds.map (fun d => (d.id, parse d.text)) ∧ (s.trees ds).2.Coherent w := by
  induction ds generalizing s with
  | nil => exact ⟨rfl, h⟩
  | cons d ds ih =>
      obtain ⟨ht, hs⟩ := h.tree (hd d List.mem_cons_self)
      obtain ⟨hts, hs⟩ := ih hs fun e he => hd e (.tail _ he)
      exact ⟨by simp [TreeSource.trees, ht, hts], hs⟩

end TreeSource

/-! ## Computations -/

/-- The trees at hand are up to date and, if this is asked for, nobody is there to answer. -/
structure Progress.Ready (w : Workspace) (silent : Prop) (p : Progress) : Prop where
  coherent : p.source.Coherent w
  silent : silent → p.dialogue.isSilent

namespace Refactoring

variable {α β : Type} {silent refusal : Prop} {x : Refactoring α} {f : α → Refactoring β}
  {Q R : α → Prop} {S : β → Prop} {a : α}

/-- A result with a property, or a refusal where these are allowed. -/
def Ends (refusal : Prop) (Q : α → Prop) : Except Failure α → Prop
  | .ok a => Q a
  | .error (.refused _) => refusal
  | .error (.fault _) => False

/-- A computation that starts with up-to-date trees keeps them up to date and ends with a result of
which something holds, or with a refusal where these are allowed, and never with a fault. -/
def Meets (w : Workspace) (silent refusal : Prop) (x : Refactoring α) (Q : α → Prop) : Prop :=
  ∀ p : Progress, p.Ready w silent →
    (x.run.run p).2.Ready w silent ∧ Ends refusal Q (x.run.run p).1

theorem Meets.mono (h : Meets w silent refusal x Q) (hr : ∀ a, Q a → R a) :
    Meets w silent refusal x R := by
  intro p hp
  obtain ⟨hq, he⟩ := h p hp
  refine ⟨hq, ?_⟩
  cases hx : (x.run.run p).1 with
  | ok a => rw [hx] at he; exact hr a he
  | error e => rw [hx] at he; cases e <;> exact he

theorem meets_pure (h : Q a) : Meets w silent refusal (pure a) Q := fun _ hp => ⟨hp, h⟩

theorem Meets.bind (h : Meets w silent refusal x Q)
    (hf : ∀ a, Q a → Meets w silent refusal (f a) S) : Meets w silent refusal (x >>= f) S := by
  intro p hp
  obtain ⟨hq, he⟩ := h p hp
  rw [ExceptT.run_bind, StateT.run_bind]
  generalize x.run.run p = r at hq he ⊢
  obtain ⟨a | a, q⟩ := r
  · exact ⟨hq, by cases a <;> exact he⟩
  · exact hf a he q hq

theorem meets_refuse (h : refusal) (r : Refusal) :
    Meets w silent refusal (refuse r : Refactoring α) Q := fun _ hp => ⟨hp, h⟩

theorem meets_ofFault {e : Except Fault α} (he : e = .ok a) (h : Q a) :
    Meets w silent refusal (ofFault e) Q := by
  subst he
  exact meets_pure h

theorem meets_get : Meets w silent refusal (get : Refactoring Progress) (·.Ready w silent) :=
  fun _ hp => ⟨hp, hp⟩

theorem meets_set {p : Progress} (h : p.Ready w silent) :
    Meets w silent refusal (set p : Refactoring PUnit) fun _ => True := fun _ _ => ⟨h, trivial⟩

/-- A computation that is not allowed to refuse has a result. -/
theorem Meets.exists_ok (h : Meets w silent False x Q) {p : Progress} (hp : p.Ready w silent) :
    ∃ a q, x.run.run p = (.ok a, q) ∧ q.Ready w silent ∧ Q a := by
  obtain ⟨hq, he⟩ := h p hp
  generalize x.run.run p = r at hq he ⊢
  obtain ⟨(e | e) | a, q⟩ := r
  · exact he.elim
  · exact he.elim
  · exact ⟨a, q, rfl, hq, he⟩

/-- A text is got from the user if there is an answer without one, or if cancelling is allowed. -/
theorem meets_talk {f : Dialogue → Option Text × Dialogue}
    (h : ∀ e : Dialogue, e.isSilent → (f e).2 = e)
    (ha : refusal ∨ silent ∧ ∀ e : Dialogue, e.isSilent → (f e).1.isSome) :
    Meets w silent refusal (talk f) fun _ => True := by
  refine meets_get.bind fun p hp => ?_
  have hq : Progress.Ready w silent { p with dialogue := (f p.dialogue).2 } :=
    ⟨hp.coherent, fun hs => by rw [h _ (hp.silent hs)]; exact hp.silent hs⟩
  refine (meets_set hq).bind fun _ _ => ?_
  split
  · exact meets_pure trivial
  · rename_i hn
    refine meets_refuse (ha.resolve_right fun ⟨hs, ha⟩ => ?_) _
    have := ha _ (hp.silent hs)
    rw [hn] at this
    cases this

end Refactoring

namespace Context

open Refactoring

variable {ctx : Context} {silent refusal : Prop}

theorem meets_tree? (hw : ctx.workspace.Numbered) (hd : d ∈ ctx.workspace.documents) :
    Meets ctx.workspace silent refusal (ctx.tree? d.id) (· = some (parse d.text)) := by
  rw [tree?, hw.get? hd]
  refine meets_get.bind fun p hp => ?_
  obtain ⟨ht, hs⟩ := hp.coherent.tree (hw.get? hd)
  exact (meets_set (p := { p with source := _ }) ⟨hs, hp.silent⟩).bind fun _ _ =>
    meets_pure (congrArg some ht)

theorem meets_tree (hw : ctx.workspace.Numbered) (hd : d ∈ ctx.workspace.documents) :
    Meets ctx.workspace silent refusal (ctx.tree d.id) (· = parse d.text) := by
  refine (meets_tree? hw hd).bind fun t ht => ?_
  subst ht
  exact meets_pure rfl

theorem meets_trees (hw : ctx.workspace.Numbered) :
    Meets ctx.workspace silent refusal ctx.trees (· = ctx.workspace.trees) := by
  refine meets_get.bind fun p hp => ?_
  obtain ⟨ht, hs⟩ := hp.coherent.trees fun d hd => hw.get? hd
  exact (meets_set (p := { p with source := _ }) ⟨hs, hp.silent⟩).bind fun _ _ => meets_pure ht

end Context

end AlRefactor
