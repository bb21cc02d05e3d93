import Dominance.Split.Free

/-!
# Sources of splits

A source answers which splits a subgraph has.
The complete source answers with every free fragment.
A preference narrows an answer down: it judges each split in turn, and may remember what it judged
before; if it accepts none, the first split stays, so that a preference never makes a subgraph
unsolvable.
-/

namespace Dominance

/-! ## All splits -/

namespace Graph

/-- The roots in a subgraph that no edge enters from within. -/
def openRoots (g : Graph) (s : Subgraph) : List Nat :=
  g.roots.filter fun r => s.contains r && g.indegreeIn s r = 0

/-- The splits of a subgraph, in ascending order of their roots. -/
def splits (g : Graph) (s : Subgraph) : List Split :=
  (g.openRoots s).filterMap (g.freeSplit? · s)

/-- The splits of a subgraph whose members come from outside. -/
def splitsOf (g : Graph) (s : Subgraph) : Except Fault (List Split) := do
  let answers ← (g.openRoots s).mapM (g.freeSplitOf · s)
  return answers.filterMap id

end Graph

/-! ## Preferences -/

/-- A judge of splits with a memory of type `σ`. -/
structure Preference (σ : Type) where
  judge : σ → Subgraph → Split → Bool × σ

namespace Preference

variable {σ : Type}

/-- Judges splits one after the other and returns those accepted. -/
def accepted (p : Preference σ) (s : Subgraph) : σ → List Split → List Split × σ
  | memory, [] => ([], memory)
  | memory, split :: splits =>
    let (ok, memory) := p.judge memory s split
    let (kept, memory) := p.accepted s memory splits
    (if ok then split :: kept else kept, memory)

/-- The accepted splits, or the first split if none is accepted. -/
def narrow (p : Preference σ) (s : Subgraph) (memory : σ) (splits : List Split) :
    List Split × σ :=
  match p.accepted s memory splits with
  | ([], memory) => (splits.take 1, memory)
  | (kept, memory) => (kept, memory)

/-- The preference that accepts what passes a test. -/
def ofTest (test : Subgraph → Split → Bool) : Preference Unit where
  judge _ s split := (test s split, ())

end Preference

/-! ## Sources -/

/-- A source of splits with a memory of type `σ`. -/
structure SplitSource (σ : Type) where
  answer : σ → Subgraph → List Split × σ

namespace SplitSource

/-- The source of all splits of a graph. -/
def complete (g : Graph) : SplitSource Unit where
  answer _ s := (g.splits s, ())

/-- The source of the splits of a graph that a preference leaves. -/
def preferred {σ : Type} (g : Graph) (p : Preference σ) : SplitSource σ where
  answer memory s := p.narrow s memory (g.splits s)

end SplitSource

end Dominance
