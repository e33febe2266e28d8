import ClauseCode.Machine.Address
import ClauseCode.Term.Basic

/-!
# Occurrences of terms and their traversals

An occurrence is a term at a place within another.  The root has depth 0, its children depth 1,
and so on. The code of a head visits the occurrences level by level and leaves the root out; the
code of a goal visits them in post-order, children before the term that holds them and the root
last.

A traversal is a state from which `next` takes one occurrence at a time and `collect` takes all
that are left.
-/

namespace ClauseCode

/-- A term at a place within another. -/
structure Occurrence where
  /-- The term. -/
  term : Term
  /-- Its distance from the root. -/
  depth : Nat
  /-- Its position among its siblings, then that of the term around it, and so on to the root. -/
  path : List Nat
  deriving Repr

namespace Occurrence

/-- The occurrence of a term that stands alone. -/
def root (t : Term) : Occurrence := ⟨t, 0, []⟩

/-- Terms as the children of an occurrence at a given depth and path, from position `i` on. -/
def childrenFrom (depth : Nat) (path : List Nat) (i : Nat) : List Term → List Occurrence
  | [] => []
  | t :: ts => ⟨t, depth + 1, i :: path⟩ :: childrenFrom depth path (i + 1) ts

/-- The occurrences directly below an occurrence. -/
def children (o : Occurrence) : List Occurrence := childrenFrom o.depth o.path 0 o.term.children

/-- The root and its children are shallow, everything below them is deep. -/
def level (o : Occurrence) : Level := if o.depth ≤ 1 then .shallow else .deep

/-- Whether an occurrence is where the traversal started. -/
def isRoot (o : Occurrence) : Bool := o.depth = 0

/-- The text of an occurrence. -/
def text (o : Occurrence) : String := o.term.text ++ "@" ++ Decimal.text o.depth

end Occurrence

/-- The state of a traversal. -/
inductive Traversal where
  /-- The occurrences whose subterms are still to be visited, in order. -/
  | breadthFirst (queue : List Occurrence)
  /-- The occurrences around the next one, the innermost first, each with its children still to be
  visited. -/
  | postOrder (stack : List (Occurrence × List Occurrence))

namespace Traversal

/-- The traversal of a term level by level, without the root. -/
def levels (t : Term) : Traversal := breadthFirst (Occurrence.root t).children

/-- The traversal of a term in post-order. -/
def bottomUp (t : Term) : Traversal := postOrder [(Occurrence.root t, (Occurrence.root t).children)]

/-- Goes down to the first leaf of a term at a given depth and path. -/
def descend (stack : List (Occurrence × List Occurrence)) (depth : Nat) (path : List Nat) :
    Term → Occurrence × List (Occurrence × List Occurrence)
  | .comp f (t :: ts) b =>
    descend ((⟨.comp f (t :: ts) b, depth, path⟩, Occurrence.childrenFrom depth path 1 ts) :: stack)
      (depth + 1) (0 :: path) t
  | .list head rest tail b =>
    descend ((⟨.list head rest tail b, depth, path⟩,
        Occurrence.childrenFrom depth path 1 [.afterCells 1 head rest tail b]) :: stack)
      (depth + 1) (0 :: path) head
  | t => (⟨t, depth, path⟩, stack)

/-- The next occurrence and the state after it. -/
def next : Traversal → Option (Occurrence × Traversal)
  | breadthFirst [] => none
  | breadthFirst (o :: queue) => some (o, breadthFirst (queue ++ o.children))
  | postOrder [] => none
  | postOrder ((o, []) :: stack) => some (o, postOrder stack)
  | postOrder ((o, c :: cs) :: stack) =>
    let (leaf, stack) := descend ((o, cs) :: stack) c.depth c.path c.term
    some (leaf, postOrder stack)

/-- The number of occurrences in and below the given ones. -/
def weightAll : List Occurrence → Nat
  | [] => 0
  | o :: os => o.term.weight + weightAll os

/-- The number of occurrences still to come. -/
def remaining : Traversal → Nat
  | breadthFirst queue => weightAll queue
  | postOrder stack => stack.foldr (fun f n => 1 + weightAll f.2 + n) 0

/-- At most `n` of the occurrences still to come. -/
def take : Nat → Traversal → List Occurrence
  | 0, _ => []
  | n + 1, s =>
    match s.next with
    | none => []
    | some (o, s) => o :: take n s

/-- All occurrences still to come. -/
def collect (s : Traversal) : List Occurrence := take s.remaining s

end Traversal

end ClauseCode
