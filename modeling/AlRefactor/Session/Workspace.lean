import AlRefactor.Declaration.Lookup

/-!
# Documents and their trees
-/

namespace AlRefactor

/-! ## Documents -/

/-- A text under a name. Its version grows with every change. -/
structure Document where
  id : Nat
  uri : Text
  version : Int
  text : Text
deriving DecidableEq, Repr

namespace Document

def hasCrlf (d : Document) : Bool := d.text.includes "\r\n"

end Document

/-- The open documents. A document is never closed, and its number is its place in the list. -/
structure Workspace where
  documents : List Document
deriving DecidableEq, Repr

namespace Workspace

def empty : Workspace := ⟨[]⟩

def size (w : Workspace) : Nat := w.documents.length

/-- Opens a document at version 1 under the next number. -/
def add (w : Workspace) (uri text : Text) : Workspace :=
  ⟨w.documents ++ [⟨w.size, uri, 1, text⟩]⟩

def get? (w : Workspace) (id : Nat) : Option Document := w.documents.find? fun d => d.id == id

def update? (w : Workspace) (id : Nat) (text : Text) : Option Workspace :=
  (w.get? id).map fun _ =>
    ⟨w.documents.map fun d => if d.id == id then { d with text, version := d.version + 1 } else d⟩

def findUri? (w : Workspace) (uri : Text) : Option Document :=
  w.documents.find? fun d => d.uri == uri

end Workspace

/-! ## Trees -/

/-- A tree and the version of the document it was made for. Every parse gets a number of its own. -/
structure CachedTree where
  version : Int
  serial : Nat
  tree : SyntaxTree

/-- At most one tree for each document. -/
structure TreeCache where
  entries : List (Nat × CachedTree)

namespace TreeCache

def empty : TreeCache := ⟨[]⟩

def size (c : TreeCache) : Nat := c.entries.length

def get? (c : TreeCache) (document : Nat) (version : Int) : Option CachedTree :=
  (c.entries.lookup document).filter fun e => e.version == version

def invalidate (c : TreeCache) (document : Nat) : TreeCache :=
  ⟨c.entries.filter fun (d, _) => d != document⟩

/-- Keeps a tree in place of any other one of its document. -/
def insert (c : TreeCache) (document : Nat) (tree : CachedTree) : TreeCache :=
  ⟨(c.invalidate document).entries ++ [(document, tree)]⟩

end TreeCache

/-- Where trees come from: a cache, and the number of texts parsed so far. -/
structure TreeSource where
  cache : TreeCache
  parses : Nat

namespace TreeSource

def empty : TreeSource := ⟨.empty, 0⟩

/-- The tree of a document, parsed only if its version is not in the cache. -/
def tree (s : TreeSource) (d : Document) : CachedTree × TreeSource :=
  match s.cache.get? d.id d.version with
  | some t => (t, s)
  | none =>
    let t : CachedTree := ⟨d.version, s.parses, SyntaxTree.parse d.text⟩
    (t, ⟨s.cache.insert d.id t, s.parses + 1⟩)

def trees (s : TreeSource) : List Document → Trees × TreeSource
  | [] => ([], s)
  | d :: ds =>
    let (t, s) := s.tree d
    let (ts, s) := s.trees ds
    ((d.id, t.tree) :: ts, s)

def invalidate (s : TreeSource) (document : Nat) : TreeSource :=
  { s with cache := s.cache.invalidate document }

end TreeSource

end AlRefactor
