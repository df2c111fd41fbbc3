import CustomIsa.Expr.Tree
import CustomIsa.Match.Rounding
import CustomIsa.Settings
/-! # Selecting instructions

A matcher finds the candidates at a node, best first. `select` takes the best candidate of a whole
tree, and `cover` tiles the tree from the root downwards: a matched node is replaced by its
instruction and the search goes on at the nodes that its registers are bound to; any other node is
left alone and the search goes on below it. Where several definitions share the best score there is
no match but an ambiguity. -/
namespace CustomIsa

/-- A registry with the settings for matching; sums have at most 64 terms. -/
structure Matcher where
  registry : Registry
  settings : MatchSettings
  capped : settings.maxSumTerms ≤ 64

/-- Definitions that share the best score at a source node. -/
structure Ambiguity where
  root : Nat
  names : List String
  deriving Repr, DecidableEq

/-- The matches that tile a tree, and the nodes left alone because of an ambiguity. -/
structure Cover where
  found : List Candidate := []
  ambiguous : List Ambiguity := []

namespace Cover

/-- One cover after another. -/
def append (a b : Cover) : Cover := ⟨a.found ++ b.found, a.ambiguous ++ b.ambiguous⟩

/-- All covers of a list, in order. -/
def concat (covers : List Cover) : Cover := covers.foldr append {}

end Cover

namespace Matcher

/-- The matcher with the given settings, where the number of terms is capped. -/
def new (registry : Registry) (settings : MatchSettings) : Matcher where
  registry
  settings := { settings with maxSumTerms := min settings.maxSumTerms 64 }
  capped := Nat.min_le_right ..

/-- The limits that the matcher sets to alignments. -/
def limits (m : Matcher) : Match.Limits := ⟨m.registry.xlen, m.settings.maxSumTerms, m.capped⟩

/-- The definitions that have the shape of a node. -/
def shaped (m : Matcher) (c : Canon) : List Entry := (c.shape?.map m.registry.shaped).getD []

/-- The candidates at a node in load order, those for rounding forms last. -/
def unranked (m : Matcher) (c : Canon) : List Candidate :=
  (m.shaped c).filterMap (Match.attempt m.limits · c) ++
    (if m.settings.roundingDetection then Match.roundingCandidates m.limits m.registry c else [])

/-- The candidates at a node, best first. -/
def candidates (m : Matcher) (c : Canon) : List Candidate :=
  Sorting.sort (fun a b => b.score.le a.score) (m.unranked c)

/-- The candidates at a source node, best first. -/
def matchAt (m : Matcher) (e : Expr Nat) : List Candidate := m.candidates (Canon.ofExpr e)

/-- The names of the definitions that share the score of the first candidate. -/
def tied : List Candidate → List String
  | [] => []
  | top :: rest => top.name :: (rest.takeWhile (·.score = top.score)).map Candidate.name

/-- The better of two lists of candidates by their first one, the earlier one among equals. -/
def better (best found : List Candidate) : List Candidate :=
  match best, found with
  | [], _ => found
  | _, [] => best
  | b :: _, f :: _ => if f.score.le b.score then best else found

/-- The best candidate of a tree, if there is any. -/
def select (m : Matcher) (t : ExprTree) : Except Failure (Option Candidate) :=
  let best := (Canon.ofExpr t.root).preorder.foldl (fun acc c => better acc (m.candidates c)) []
  match best with
  | [] => .ok none
  | top :: _ =>
    if 1 < (tied best).length then .error (.ambiguous top.root (tied best)) else .ok (some top)

/-- The nodes of a form that the operands of an instruction are bound to, in the order of their
names. -/
def operandNodes (root : Canon) (i : BoundInstruction) : List Canon :=
  i.operands.values.filterMap fun
    | .value node => root.preorder.find? (·.source = node)
    | .imm _ => none

/-- Tiles the part of a form below a node. Each step goes to a node whose source has a smaller
number, so as many steps as that number, and one, are enough. -/
def coverFrom (m : Matcher) (root : Canon) : Nat → Canon → Cover
  | 0, _ => {}
  | steps + 1, c =>
    let found := m.candidates c
    match found with
    | [] => .concat (c.children.map (coverFrom m root steps))
    | top :: _ =>
      if 1 < (tied found).length then
        .append { ambiguous := [⟨top.root, tied found⟩] }
          (.concat (c.children.map (coverFrom m root steps)))
      else
        .append { found := [top] }
          (.concat ((operandNodes root top.instruction).map (coverFrom m root steps)))

/-- Tiles a tree. -/
def cover (m : Matcher) (t : ExprTree) : Cover :=
  let root := Canon.ofExpr t.root
  m.coverFrom root (root.source + 1) root

end Matcher

/-- An ambiguity as a failure. -/
def Ambiguity.toFailure (a : Ambiguity) : Failure := .ambiguous a.root a.names

/-- The covers of the trees of one function. -/
structure FunctionReport where
  name : String
  covers : List Cover

/-- The number of matches in all trees of a function. -/
def FunctionReport.matched (f : FunctionReport) : Nat :=
  f.covers.foldr (fun c count => c.found.length + count) 0

/-- Tiles every tree of every function. -/
def Matcher.coverFunctions (m : Matcher) (functions : List (String × List ExprTree)) :
    List FunctionReport :=
  functions.map fun (name, trees) => ⟨name, trees.map m.cover⟩

end CustomIsa
