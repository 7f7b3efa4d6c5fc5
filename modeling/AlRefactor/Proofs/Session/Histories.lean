import AlRefactor.Proofs.Session.Refactoring

/-!
# Trees along a history of calls

Documents are opened and changed, trees are asked for and dropped, in any order. What is kept between
two calls is described by `Sound`, which every call preserves: no kept tree is ahead of its document,
and one kept for a document's version is the tree of its text. A tree that is kept at the version of
its document stays where it is until that document is changed or its tree is dropped.
-/

namespace AlRefactor

open SyntaxTree

/-! ## What a source of trees keeps -/

namespace TreeSource

variable {s : TreeSource} {d e : Document} {ds : List Document} {k : CachedTree} {id : Nat} {v : Int}

/-- A tree is kept for this version of a document. -/
def Keeps (s : TreeSource) (d : Document) (k : CachedTree) : Prop :=
  s.cache.get? d.id d.version = some k

/-- Nothing is kept for this version of a document, so that it has to be parsed. -/
def misses (s : TreeSource) (d : Document) : Bool := (s.cache.get? d.id d.version).isNone

theorem Keeps.tree (h : s.Keeps d k) : s.tree d = (k, s) := by
  rw [TreeSource.tree, h]

theorem tree_of_misses (h : s.misses d) :
    s.tree d = (⟨d.version, s.parses, parse d.text⟩,
      ⟨s.cache.insert d.id ⟨d.version, s.parses, parse d.text⟩, s.parses + 1⟩) := by
  rw [TreeSource.tree, Option.isNone_iff_eq_none.mp h]

theorem keeps_or_misses (s : TreeSource) (d : Document) : (∃ k, s.Keeps d k) ∨ s.misses d := by
  cases h : s.cache.get? d.id d.version with
  | none => exact .inr (by rw [misses, h]; rfl)
  | some k => exact .inl ⟨k, h⟩

theorem misses_eq_false (h : s.Keeps d k) : s.misses d = false := by
  rw [misses, h]
  rfl

/-- What was asked for is kept. -/
theorem keeps_tree (s : TreeSource) (d : Document) : (s.tree d).2.Keeps d (s.tree d).1 := by
  obtain ⟨k, hk⟩ | hm := s.keeps_or_misses d
  · rw [hk.tree]
    exact hk
  · rw [tree_of_misses hm, Keeps, TreeCache.get?, lookup_insert, if_pos rfl]
    simp

/-- A tree changes nothing for the other documents. -/
theorem get?_tree (h : id ≠ d.id) (v : Int) :
    (s.tree d).2.cache.get? id v = s.cache.get? id v := by
  obtain ⟨k, hk⟩ | hm := s.keeps_or_misses d
  · rw [hk.tree]
  · rw [tree_of_misses hm, TreeCache.get?, lookup_insert, if_neg h, TreeCache.get?]

/-- A kept tree survives a request, whatever document that is for. -/
theorem Keeps.after_tree (h : s.Keeps d k) (he : e.id = d.id → e = d) : (s.tree e).2.Keeps d k := by
  by_cases hi : e.id = d.id
  · rw [he hi, h.tree]
    exact h
  · exact (get?_tree (Ne.symm hi) _).trans h

theorem Keeps.after_trees (h : s.Keeps d k) (he : ∀ e ∈ ds, e.id = d.id → e = d) :
    (s.trees ds).2.Keeps d k := by
  induction ds generalizing s with
  | nil => exact h
  | cons e ds ih => exact ih (h.after_tree (he e List.mem_cons_self)) fun f hf => he f (.tail _ hf)

theorem keeps_trees (hd : d ∈ ds) (he : ∀ e ∈ ds, e.id = d.id → e = d) :
    ∃ k, (s.trees ds).2.Keeps d k := by
  induction ds generalizing s with
  | nil => cases hd
  | cons e ds ih =>
      have hs : ∀ f ∈ ds, f.id = d.id → f = d := fun f hf => he f (.tail _ hf)
      cases hd with
      | head => exact ⟨_, (s.keeps_tree d).after_trees hs⟩
      | tail _ hd => exact ih hd hs

/-- Only the documents without a kept tree are parsed. -/
theorem parses_tree (s : TreeSource) (d : Document) :
    (s.tree d).2.parses = s.parses + (s.misses d).toNat := by
  obtain ⟨k, hk⟩ | hm := s.keeps_or_misses d
  · rw [hk.tree, misses_eq_false hk]
    rfl
  · rw [tree_of_misses hm, hm]
    rfl

theorem parses_trees (s : TreeSource) (hn : (ds.map (·.id)).Nodup) :
    (s.trees ds).2.parses = s.parses + ds.countP s.misses := by
  induction ds generalizing s with
  | nil => rfl
  | cons d ds ih =>
      obtain ⟨hd, hn⟩ := List.nodup_cons.mp hn
      -- the tree of `d` changes nothing for the documents behind it
      have hc : ds.countP (s.tree d).2.misses = ds.countP s.misses := by
        refine List.countP_congr fun e he => ?_
        have hne : e.id ≠ d.id := fun hi => hd (List.mem_map.mpr ⟨e, he, hi⟩)
        rw [misses, misses, get?_tree hne]
      rw [TreeSource.trees, List.countP_cons]
      dsimp only
      rw [ih _ hn, parses_tree, hc]
      cases s.misses d
      · rfl
      · simp only [Bool.toNat_true, if_true]
        omega

/-! ## One tree for each document -/

/-- No document has two trees. -/
def Single (s : TreeSource) : Prop := (s.cache.entries.map (·.1)).Nodup

theorem Single.invalidate (h : s.Single) (id : Nat) : (s.invalidate id).Single :=
  List.Nodup.sublist (List.filter_sublist.map _) h

theorem Single.tree (h : s.Single) (d : Document) : (s.tree d).2.Single := by
  obtain ⟨k, hk⟩ | hm := s.keeps_or_misses d
  · rw [hk.tree]
    exact h
  · rw [tree_of_misses hm, Single, TreeCache.insert, List.map_append]
    refine (h.invalidate d.id).append (List.nodup_singleton _) ?_
    rw [List.map_singleton, List.disjoint_singleton]
    simp [TreeSource.invalidate, TreeCache.invalidate]

theorem Single.trees (h : s.Single) (ds : List Document) : (s.trees ds).2.Single := by
  induction ds generalizing s with
  | nil => exact h
  | cons d ds ih => exact ih (h.tree d)

theorem Coherent.invalidate {w : Workspace} (h : s.Coherent w) (id : Nat) :
    (s.invalidate id).Coherent w := by
  intro j c hc
  rw [TreeSource.invalidate, lookup_invalidate] at hc
  split at hc
  · cases hc
  · exact h j c hc

theorem Coherent.tree_eq {w : Workspace} (h : s.Coherent w) (hd : w.get? d.id = some d)
    (hk : s.Keeps d k) : k.tree = parse d.text := by
  rw [← (h.tree hd).1, hk.tree]

end TreeSource

/-! ## Calls -/

/-- A workspace under one configuration, and the trees at hand. -/
structure Session where
  context : Context
  progress : Progress

namespace Session

/-- What a session is asked to do. -/
inductive Call where
  | add (uri text : Text)
  | update (id : Nat) (text : Text)
  | invalidate (id : Nat)
  | tree (id : Nat)
  | trees

namespace Call

/-- The tree of this document is asked for. -/
def serves (id : Nat) : Call → Bool
  | .tree j => j == id
  | .trees => true
  | .add _ _ | .update _ _ | .invalidate _ => false

/-- This document gets a new text. -/
def updates (id : Nat) : Call → Bool
  | .update j _ => j == id
  | .add _ _ | .invalidate _ | .tree _ | .trees => false

/-- The tree kept for this document is given up. -/
def drops (id : Nat) : Call → Bool
  | .update j _ | .invalidate j => j == id
  | .add _ _ | .tree _ | .trees => false

end Call

/-- What comes back from a call. -/
inductive Reply where
  | opened (id : Nat)
  | done
  | tree (tree : SyntaxTree)
  | trees (trees : Trees)
  | failed (failure : Failure)

namespace Reply

/-- The tree of a document in an answer to a call that asks for it. -/
def tree? (id : Nat) : Reply → Option SyntaxTree
  | .tree t => some t
  | .trees ts => ts.tree? id
  | .opened _ | .done | .failed _ => none

end Reply

variable {s : Session} {c : Call} {d : Document} {k : CachedTree} {id : Nat}

def start (config : Config) (project : Project) (host : Host) : Session :=
  ⟨⟨.empty, config, project⟩, ⟨.empty, .start host⟩⟩

def workspace (s : Session) : Workspace := s.context.workspace

def source (s : Session) : TreeSource := s.progress.source

def withWorkspace (s : Session) (workspace : Workspace) : Session :=
  { s with context := { s.context with workspace } }

def withSource (s : Session) (source : TreeSource) : Session :=
  { s with progress := { s.progress with source } }

@[simp] theorem workspace_withWorkspace (w : Workspace) : (s.withWorkspace w).workspace = w := rfl

@[simp] theorem source_withWorkspace (w : Workspace) : (s.withWorkspace w).source = s.source := rfl

@[simp] theorem workspace_withSource (t : TreeSource) : (s.withSource t).workspace = s.workspace := rfl

@[simp] theorem source_withSource (t : TreeSource) : (s.withSource t).source = t := rfl

/-- Lets a refactoring look at the trees. -/
def look {α : Type} (s : Session) (f : α → Reply) (x : Refactoring α) : Reply × Session :=
  let (result, progress) := x.run.run s.progress
  (match result with
    | .ok a => f a
    | .error e => .failed e,
    { s with progress })

def step (s : Session) : Call → Reply × Session
  | .add uri text => (.opened s.workspace.size, s.withWorkspace (s.workspace.add uri text))
  | .update id text =>
    match s.workspace.update? id text with
    | some w => (.done, s.withWorkspace w)
    | none => (.failed (.refused (.unknownDocument id)), s)
  | .invalidate id => (.done, s.withSource (s.source.invalidate id))
  | .tree id => s.look .tree (s.context.tree id)
  | .trees => s.look .trees s.context.trees

/-- The session after some calls. -/
def after (s : Session) : List Call → Session
  | [] => s
  | c :: cs => (s.step c).2.after cs

/-! ### What each call does -/

theorem step_update (h : s.workspace.get? id = some d) (text : Text) :
    ∃ w, s.workspace.update? id text = some w ∧
      s.step (.update id text) = (.done, s.withWorkspace w) := by
  have hu : s.workspace.update? id text = some _ := congrArg (Option.map _) h
  exact ⟨_, hu, by rw [step, hu]⟩

/-- A document that is not there cannot be changed. -/
theorem step_update_none (h : s.workspace.get? id = none) (text : Text) :
    s.step (.update id text) = (.failed (.refused (.unknownDocument id)), s) := by
  have hu : s.workspace.update? id text = none := congrArg (Option.map _) h
  rw [step, hu]

theorem step_tree (h : s.workspace.get? id = some d) :
    s.step (.tree id) = (.tree (s.source.tree d).1.tree, s.withSource (s.source.tree d).2) := by
  rw [step, look, Context.tree, Context.tree?, show s.context.workspace.get? id = some d from h]
  rfl

theorem step_tree_none (h : s.workspace.get? id = none) :
    s.step (.tree id) = (.failed (.refused (.unknownDocument id)), s) := by
  rw [step, look, Context.tree, Context.tree?, show s.context.workspace.get? id = none from h]
  rfl

theorem step_trees (s : Session) :
    s.step .trees = (.trees (s.source.trees s.workspace.documents).1,
      s.withSource (s.source.trees s.workspace.documents).2) := rfl

/-! ### What every call preserves -/

/-- Documents are numbered, no kept tree is out of date, and no document has two of them. -/
structure Sound (s : Session) : Prop where
  numbered : s.workspace.Numbered
  coherent : s.source.Coherent s.workspace
  single : s.source.Single

theorem sound_start (config : Config) (project : Project) (host : Host) :
    (start config project host).Sound :=
  ⟨Workspace.numbered_empty, TreeSource.coherent_empty _, List.nodup_nil⟩

theorem Sound.step (h : s.Sound) (c : Call) : (s.step c).2.Sound := by
  cases c with
  | add uri text =>
      exact ⟨h.numbered.add uri text, h.coherent.add uri text, h.single⟩
  | update id text =>
      cases hd : s.workspace.get? id with
      | none =>
          rw [step_update_none hd]
          exact h
      | some d =>
          obtain ⟨w, hu, hs⟩ := step_update hd text
          rw [hs]
          exact ⟨h.numbered.update? hu, h.coherent.update? hu, h.single⟩
  | invalidate id =>
      exact ⟨h.numbered, h.coherent.invalidate id, h.single.invalidate id⟩
  | tree id =>
      cases hd : s.workspace.get? id with
      | none =>
          rw [step_tree_none hd]
          exact h
      | some d =>
          rw [step_tree hd]
          obtain ⟨-, rfl⟩ := Workspace.mem_of_get? hd
          exact ⟨h.numbered, (h.coherent.tree hd).2, h.single.tree d⟩
  | trees =>
      rw [step_trees]
      exact ⟨h.numbered, (h.coherent.trees fun d hd => h.numbered.get? hd).2, h.single.trees _⟩

theorem Sound.after (h : s.Sound) (cs : List Call) : (s.after cs).Sound := by
  induction cs generalizing s with
  | nil => exact h
  | cons c cs ih => exact ih (h.step c)

/-! ### Answers -/

/-- Two documents with one number are the same. -/
theorem Sound.eq_of_id (h : s.Sound) (hd : s.workspace.get? d.id = some d) :
    ∀ e ∈ s.workspace.documents, e.id = d.id → e = d := fun _ he hi =>
  Option.some.inj ((h.numbered.get? he).symm.trans (hi ▸ hd))

theorem Sound.reply_tree (h : s.Sound) (hd : s.workspace.get? id = some d) :
    (s.step (.tree id)).1 = .tree (parse d.text) := by
  obtain ⟨-, rfl⟩ := Workspace.mem_of_get? hd
  rw [step_tree hd, (h.coherent.tree hd).1]

theorem Sound.reply_trees (h : s.Sound) : (s.step .trees).1 = .trees s.workspace.trees := by
  rw [step_trees, (h.coherent.trees fun d hd => h.numbered.get? hd).1]
  rfl

theorem lookup_map {α : Type} (f : Document → α) (ds : List Document) (id : Nat) :
    (ds.map fun d => (d.id, f d)).lookup id = (ds.find? fun d => d.id == id).map f := by
  induction ds with
  | nil => rfl
  | cons d ds ih =>
      rw [List.map_cons, List.lookup_cons, List.find?_cons, BEq.comm, ih]
      split <;> rfl

theorem tree?_trees {w : Workspace} (hd : w.get? id = some d) :
    w.trees.tree? id = some (parse d.text) := by
  rw [Trees.tree?, Workspace.trees, lookup_map, ← Workspace.get?, hd]
  rfl

/-- Whoever asks for the tree of a document gets the tree of its text. -/
theorem Sound.tree?_reply (h : s.Sound) (hd : s.workspace.get? id = some d) (hc : c.serves id) :
    (s.step c).1.tree? id = some (parse d.text) := by
  cases c with
  | add | update | invalidate => cases hc
  | tree j =>
      obtain rfl : j = id := by simpa [Call.serves] using hc
      rw [h.reply_tree hd]
      rfl
  | trees =>
      rw [h.reply_trees]
      exact tree?_trees hd

/-! ### Trees that stay -/

/-- A tree that was asked for is kept. -/
theorem Sound.exists_keeps (h : s.Sound) (hd : s.workspace.get? d.id = some d)
    (hc : c.serves d.id) :
    (s.step c).2.workspace.get? d.id = some d ∧ ∃ k, (s.step c).2.source.Keeps d k := by
  cases c with
  | add | update | invalidate => cases hc
  | tree j =>
      obtain rfl : j = d.id := by simpa [Call.serves] using hc
      rw [step_tree hd]
      exact ⟨hd, _, s.source.keeps_tree d⟩
  | trees =>
      rw [step_trees]
      exact ⟨hd, TreeSource.keeps_trees (Workspace.mem_of_get? hd).1 (h.eq_of_id hd)⟩

theorem get?_update {w v : Workspace} {j : Nat} {text : Text} (h : w.update? j text = some v)
    (hd : w.get? id = some d) (hi : j ≠ id) : v.get? id = some d := by
  obtain ⟨_, _, rfl⟩ := Option.map_eq_some_iff.mp h
  have hj : (fun e : Document => e.id == id) ∘ (fun e : Document =>
      if e.id == j then { e with text, version := e.version + 1 } else e) = fun e => e.id == id := by
    funext e
    dsimp only [Function.comp]
    split <;> rfl
  rw [Workspace.get?, List.find?_map, hj, ← Workspace.get?, hd]
  have hne : ¬ d.id = j := (Workspace.mem_of_get? hd).2 ▸ hi.symm
  simp [hne]

/-- A kept tree stays, and its document with it, until the one is dropped or the other changes. -/
theorem Sound.keeps_step (h : s.Sound) (hd : s.workspace.get? d.id = some d)
    (hk : s.source.Keeps d k) (hc : ¬ c.drops d.id) :
    (s.step c).2.workspace.get? d.id = some d ∧ (s.step c).2.source.Keeps d k := by
  cases c with
  | add uri text =>
      refine ⟨?_, hk⟩
      rw [Session.step, workspace_withWorkspace, Workspace.get?, Workspace.add, List.find?_append]
      exact Option.or_eq_some_iff.mpr (.inl hd)
  | update j text =>
      have hj : j ≠ d.id := by simpa [Call.drops] using hc
      cases hf : s.workspace.get? j with
      | none =>
          rw [step_update_none hf]
          exact ⟨hd, hk⟩
      | some e =>
          obtain ⟨w, hu, hs⟩ := step_update hf text
          rw [hs]
          exact ⟨get?_update hu hd hj, hk⟩
  | invalidate j =>
      have hj : d.id ≠ j := fun hi => hc (by simp [Call.drops, hi])
      refine ⟨hd, ?_⟩
      rw [Session.step, source_withSource, TreeSource.Keeps, TreeSource.invalidate, TreeCache.get?,
        TreeSource.lookup_invalidate, if_neg hj]
      exact hk
  | tree j =>
      cases hf : s.workspace.get? j with
      | none =>
          rw [step_tree_none hf]
          exact ⟨hd, hk⟩
      | some e =>
          rw [step_tree hf]
          exact ⟨hd, hk.after_tree (h.eq_of_id hd e (Workspace.mem_of_get? hf).1)⟩
  | trees =>
      rw [step_trees]
      exact ⟨hd, hk.after_trees (h.eq_of_id hd)⟩

theorem Sound.keeps_after (h : s.Sound) (hd : s.workspace.get? d.id = some d)
    (hk : s.source.Keeps d k) {cs : List Call} (hc : ∀ c ∈ cs, ¬ c.drops d.id) :
    (s.after cs).workspace.get? d.id = some d ∧ (s.after cs).source.Keeps d k := by
  induction cs generalizing s with
  | nil => exact ⟨hd, hk⟩
  | cons c cs ih =>
      obtain ⟨hd, hk'⟩ := h.keeps_step hd hk (hc c List.mem_cons_self)
      exact ih (h.step c) hd hk' fun e he => hc e (.tail _ he)

theorem countP_id {ds : List Document} (hn : (ds.map (·.id)).Nodup) (p : Document → Bool) (id : Nat) :
    ds.countP (fun d => id == d.id && p d) = ((ds.find? fun d => d.id == id).any p).toNat := by
  induction ds with
  | nil => rfl
  | cons d ds ih =>
      obtain ⟨hd, hn⟩ := List.nodup_cons.mp hn
      rw [List.countP_cons, List.find?_cons, BEq.comm]
      cases hi : d.id == id with
      | false => simpa using ih hn
      | true =>
          have hz : ds.countP (fun e => id == e.id && p e) = 0 := by
            refine List.countP_eq_zero.mpr fun e he hb => hd (List.mem_map.mpr ⟨e, he, ?_⟩)
            obtain ⟨rfl, -⟩ := by simpa using hb
            exact (by simpa using hi : d.id = e.id).symm
          rw [hz]
          cases hp : p d <;> simp [hp]

/-- A call parses the documents that it asks for and of which no tree is kept, and no other. -/
theorem Sound.parses_step (h : s.Sound) (c : Call) :
    (s.step c).2.source.parses = s.source.parses +
      s.workspace.documents.countP fun d => c.serves d.id && s.source.misses d := by
  have hn : (s.workspace.documents.map (·.id)).Nodup := h.numbered ▸ List.nodup_range
  cases c with
  | add uri text =>
      rw [Session.step, source_withWorkspace]
      simp [Call.serves]
  | invalidate id =>
      rw [Session.step, source_withSource]
      simp [Call.serves, TreeSource.invalidate]
  | update id text =>
      cases hd : s.workspace.get? id with
      | none =>
          rw [step_update_none hd]
          simp [Call.serves]
      | some d =>
          obtain ⟨w, -, hs⟩ := step_update hd text
          rw [hs, source_withWorkspace]
          simp [Call.serves]
  | tree id =>
      simp only [Call.serves]
      rw [countP_id hn, ← Workspace.get?]
      cases hd : s.workspace.get? id with
      | none =>
          rw [step_tree_none hd]
          rfl
      | some d =>
          rw [step_tree hd]
          exact s.source.parses_tree d
  | trees =>
      rw [step_trees, source_withSource, s.source.parses_trees hn]
      simp [Call.serves]

/-! ### Versions -/

/-- A document's version tells how often it can have been changed at most. -/
def Bounded (s : Session) (updates : Nat → Nat) : Prop :=
  ∀ d ∈ s.workspace.documents, 1 ≤ d.version ∧ d.version ≤ 1 + updates d.id

theorem Bounded.step {n : Nat → Nat} (h : s.Bounded n) (c : Call) :
    (s.step c).2.Bounded fun id => n id + (c.updates id).toNat := by
  -- only a change moves a version
  have hs (hw : (s.step c).2.workspace = s.workspace) :
      (s.step c).2.Bounded fun id => n id + (c.updates id).toNat := by
    intro d hd
    obtain ⟨hl, hu⟩ := h d (hw ▸ hd)
    exact ⟨hl, by dsimp only; omega⟩
  cases c with
  | invalidate | trees => exact hs rfl
  | tree id =>
      cases hd : s.workspace.get? id with
      | none => exact hs (by rw [step_tree_none hd])
      | some d => exact hs (by rw [step_tree hd]; rfl)
  | add uri text =>
      intro d hd
      obtain hd | hd := List.mem_append.mp hd
      · exact h d hd
      · obtain rfl := List.mem_singleton.mp hd
        exact ⟨Int.le_refl _, by dsimp only; omega⟩
  | update id text =>
      cases hf : s.workspace.get? id with
      | none => exact hs (by rw [step_update_none hf])
      | some e =>
          obtain ⟨w, hu, hs⟩ := step_update hf text
          rw [hs]
          obtain ⟨_, _, rfl⟩ := Option.map_eq_some_iff.mp hu
          intro d hd
          obtain ⟨d, hm, rfl⟩ := List.mem_map.mp hd
          obtain ⟨hl, hu⟩ := h d hm
          simp only [Call.updates, BEq.comm (a := id)]
          split
          · rename_i hi
            simp only [hi, Bool.toNat_true]
            omega
          · exact ⟨hl, by omega⟩

theorem Bounded.after {n : Nat → Nat} (h : s.Bounded n) (cs : List Call) :
    (s.after cs).Bounded fun id => n id + cs.countP (·.updates id) := by
  induction cs generalizing s n with
  | nil => exact h
  | cons c cs ih =>
      intro d hd
      obtain ⟨hl, hu⟩ := ih (h.step c) d hd
      refine ⟨hl, ?_⟩
      dsimp only at hu ⊢
      rw [List.countP_cons]
      cases hc : c.updates d.id with
      | false => simpa [hc] using hu
      | true =>
          simp only [hc, Bool.toNat_true, if_true] at hu ⊢
          omega

/-! ### Along a history -/

/-- After any history the tree that is returned for a document is that of its current text; a tree
that was asked for is kept and handed out again, without another parse, until its document is changed
or its tree dropped; no document has two trees; a change of an unknown document is refused and changes
nothing; and a document's version counts its changes. -/
theorem never_stale (config : Config) (project : Project) (host : Host) (history : List Call) :
    let s := (start config project host).after history
    (∀ id, (s.step (.tree id)).1 = match s.workspace.get? id with
      | some d => .tree (parse d.text)
      | none => .failed (.refused (.unknownDocument id))) ∧
    (s.step .trees).1 = .trees (s.workspace.documents.map fun d => (d.id, parse d.text)) ∧
    (∀ d ∈ s.workspace.documents, ∀ first between second,
      first.serves d.id → (∀ c ∈ between, ¬ c.drops d.id) → second.serves d.id →
      let t := (s.step first).2.after between
      ∃ k, (s.step first).2.source.Keeps d k ∧ t.source.Keeps d k ∧ (t.step second).2.source.Keeps d k ∧
        (s.step first).1.tree? d.id = some k.tree ∧ (t.step second).1.tree? d.id = some k.tree) ∧
    (∀ c, (s.step c).2.source.parses = s.source.parses +
      s.workspace.documents.countP fun d => c.serves d.id && s.source.misses d) ∧
    s.source.Single ∧
    (∀ id text, s.workspace.get? id = none →
      s.step (.update id text) = (.failed (.refused (.unknownDocument id)), s)) ∧
    ∀ d ∈ s.workspace.documents,
      1 ≤ d.version ∧ d.version ≤ 1 + history.countP (·.updates d.id) := by
  intro s
  have hs : s.Sound := (sound_start config project host).after history
  refine ⟨fun id => ?_, hs.reply_trees, ?_, hs.parses_step, hs.single,
    fun id text hi => step_update_none hi text, ?_⟩
  · cases hd : s.workspace.get? id with
    | none => rw [step_tree_none hd]
    | some d => exact hs.reply_tree hd
  · intro d hd first between second hf hb hg t
    have hd := hs.numbered.get? hd
    obtain ⟨hd₁, k, hk₁⟩ := hs.exists_keeps hd hf
    obtain ⟨hd₂, hk₂⟩ := (hs.step first).keeps_after hd₁ hk₁ hb
    have ht : t.Sound := (hs.step first).after between
    have hp : k.tree = parse d.text := (hs.step first).coherent.tree_eq hd₁ hk₁
    have hn : ¬ second.drops d.id := by
      cases second <;> simp_all [Call.serves, Call.drops]
    refine ⟨k, hk₁, hk₂, (ht.keeps_step hd₂ hk₂ hn).2, ?_, ?_⟩
    · rw [hp]
      exact hs.tree?_reply hd hf
    · rw [hp]
      exact ht.tree?_reply hd₂ hg
  · have hz : (start config project host).Bounded fun _ => 0 := fun d hd => (List.not_mem_nil hd).elim
    intro d hd
    simpa using hz.after history d hd

end Session

end AlRefactor
