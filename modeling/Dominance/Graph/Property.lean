import Dominance.Graph.Fragment

/-!
# Properties of graphs

The classes of dominance graphs that the solver and the command line distinguish.

* simple: no node has two tree edges above it, and every fragment has exactly one root
* leaf-labelled: nothing hangs below a hole
* no empty fragments: below every root there is a label
* weakly normal: simple, and dominance edges enter roots
* normal: weakly normal, leaf-labelled, without empty fragments, and dominance edges leave holes
* compact: every tree edge goes from a root to a hole
* compactifiable: simple and leaf-labelled
-/

namespace Dominance

/-- The properties that graphs are checked for. -/
inductive Property where
  | simple
  | leafLabelled
  | noEmptyFragments
  | weaklyNormal
  | normal
  | compact
  | compactifiable
deriving DecidableEq, Repr

namespace Property

/-- All properties, in the order of a report. -/
def all : List Property :=
  [.simple, .leafLabelled, .noEmptyFragments, .weaklyNormal, .normal, .compact, .compactifiable]

/-- The name of a property in a report. -/
def title : Property → String
  | .simple => "simple"
  | .leafLabelled => "leaf-labelled"
  | .noEmptyFragments => "no-empty-fragments"
  | .weaklyNormal => "weakly-normal"
  | .normal => "normal"
  | .compact => "compact"
  | .compactifiable => "compactifiable"

end Property

namespace Graph

/-- No node has two tree edges above it, and every fragment has exactly one root. -/
def isSimple (g : Graph) : Bool :=
  ((List.range g.size).all fun n => (g.parents .tree n).length ≤ 1)
    && g.fragments.all fun f => (g.rootsIn f).length = 1

/-- No tree edge leaves a hole. -/
def isLeafLabelled (g : Graph) : Bool :=
  (List.range g.size).all fun n => !g.isHole n || g.isLeaf n

/-- The fragment of every root has a labelled node. -/
def hasNoEmptyFragments (g : Graph) : Bool :=
  g.roots.all fun r => (g.fragment r).ids.any fun n => !g.isHole n

/-- Every dominance edge enters a root. -/
def dominatesRoots (g : Graph) : Bool := g.dominanceEdges.all fun e => g.isRoot e.target

/-- Every dominance edge leaves a hole. -/
def dominatesFromHoles (g : Graph) : Bool := g.dominanceEdges.all fun e => g.isHole e.source

/-- Simple, with dominance edges into roots only. -/
def isWeaklyNormal (g : Graph) : Bool := g.isSimple && g.dominatesRoots

/-- Weakly normal and leaf-labelled, without empty fragments, with dominance edges out of holes
only. -/
def isNormal (g : Graph) : Bool :=
  g.isWeaklyNormal && g.isLeafLabelled && g.hasNoEmptyFragments && g.dominatesFromHoles

/-- Every tree edge goes from a root to a hole. -/
def isCompact (g : Graph) : Bool := g.treeEdges.all fun e => g.isRoot e.source && g.isHole e.target

/-- Simple and leaf-labelled. -/
def isCompactifiable (g : Graph) : Bool := g.isSimple && g.isLeafLabelled

/-- Whether a graph has a property. -/
def has (g : Graph) : Property → Bool
  | .simple => g.isSimple
  | .leafLabelled => g.isLeafLabelled
  | .noEmptyFragments => g.hasNoEmptyFragments
  | .weaklyNormal => g.isWeaklyNormal
  | .normal => g.isNormal
  | .compact => g.isCompact
  | .compactifiable => g.isCompactifiable

end Graph

end Dominance
