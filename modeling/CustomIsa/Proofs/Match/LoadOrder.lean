import CustomIsa.Proofs.Match.Footprint
import CustomIsa.Proofs.Registry.Order
/-! # Matching and the order of declaration

Two registries with the same declarations give the same candidates at every node, up to how they
number and alias entries (`Candidate.view`) and up to their order: a definition with a template
makes a candidate by itself, and a rounding form is the only one of its base. Sorting puts
candidates with the best score first in both, so the best score is the same, and so are the
definitions that share it. A single best candidate is therefore the same, and several are reported,
never told apart by their order (`SameRanking`). -/
namespace CustomIsa
open Match

/-- A candidate without the number, alias and opcode of its entry. -/
structure Candidate.View where
  name : String
  operands : NameMap Bound
  score : Score
  root : Nat
  absorbed : List Nat
  consumed : List Nat

/-- What a candidate says of the source, and the name of its definition. -/
def Candidate.view (c : Candidate) : View :=
  ⟨c.name, c.instruction.operands, c.score, c.root, c.absorbed, c.consumed⟩

/-! ## The candidates at a node -/

namespace Match
open Registry

/-- Entries that are declared and compiled alike make the same candidates. -/
theorem view_attempt {e e' : Entry} (hdecl : e'.declaration = e.declaration)
    (htemplate : e'.template = e.template) (limits : Limits) (c : Canon) :
    (attempt limits e' c).map Candidate.view = (attempt limits e c).map Candidate.view := by
  have hdef : e'.definition = e.definition := congrArg Declaration.definition hdecl
  have hname : e'.name = e.name := congrArg Declaration.name hdecl
  have hstate : ∀ s, (toCandidate e' c s).map Candidate.view =
      (toCandidate e c s).map Candidate.view := by
    intro s
    unfold toCandidate
    rw [hdef, Option.map_map, Option.map_map]
    congr 1
    funext operands
    simp only [Function.comp_apply, Candidate.view, Candidate.name, hname]
  unfold attempt
  rw [htemplate]
  cases e.template with
  | none => rfl
  | some t =>
    rw [Option.bind_some, Option.bind_some, List.map_findSome?, List.map_findSome?]
    congr 1
    funext s
    exact hstate s

theorem view_attemptRounding {base base' variant variant' : Entry}
    (hbase : base'.declaration = base.declaration) (htemplate : base'.template = base.template)
    (hvariant : variant'.declaration = variant.declaration) (limits : Limits)
    (shift : RoundingShift) :
    (attemptRounding limits shift base' variant').map Candidate.view =
      (attemptRounding limits shift base variant).map Candidate.view := by
  have hname : variant'.name = variant.name := congrArg Declaration.name hvariant
  have heq := view_attempt hbase htemplate limits shift.stripped
  -- the view of a rounding candidate is a function of the view of the plain one
  let round (name : String) (v : Candidate.View) : Candidate.View :=
    let absorbed := Candidate.distinct (v.absorbed ++ shift.sum.origin.absorbed)
    ⟨name, v.operands, { v.score with absorbed := absorbed.length }, v.root, absorbed,
      shift.consumed⟩
  have hround : ∀ b v : Entry, (attemptRounding limits shift b v).map Candidate.view =
      ((attempt limits b shift.stripped).map Candidate.view).map (round v.name) := by
    intro b v
    unfold attemptRounding
    rw [Option.map_map, Option.map_map]
    rfl
  rw [hround, hround, heq, hname]

/-- The entry that a declaration has wherever it is loaded, but for its number and alias. -/
def representative (p : Declaration) : Entry := withTemplate (p.toEntry 0)

@[simp] theorem declaration_representative (p : Declaration) :
    (representative p).declaration = p := rfl

theorem view_attempt_representative {e : Entry} (h : e.template = e.definition.compiled?)
    (limits : Limits) (c : Canon) :
    (attempt limits e c).map Candidate.view =
      (attempt limits (representative e.declaration) c).map Candidate.view :=
  view_attempt (declaration_representative e.declaration).symm h limits c

end Match

namespace Matcher
open Registry

/-- **Registries with the same declarations give the same candidates at a node**, up to how entries
are numbered and aliased, and up to the order. -/
theorem views_perm {r r' : Registry} (h : r.SameDeclarations r') (settings : MatchSettings)
    (c : Canon) : (((Matcher.new r settings).unranked c).map Candidate.view).Perm
      (((Matcher.new r' settings).unranked c).map Candidate.view) := by
  have hlimits : (Matcher.new r' settings).limits = (Matcher.new r settings).limits := by
    simp only [Matcher.limits, Matcher.new, h.xlen]
  -- candidates are settled by declarations, of which both registries have the same
  have hplain : ∀ {s : Registry}, s.Loaded → ∀ limits : Limits,
      (s.entries.filterMap (attempt limits · c)).map Candidate.view =
        (s.entries.map Entry.declaration).filterMap fun p =>
          (attempt limits (representative p) c).map Candidate.view := by
    intro s hs limits
    rw [List.map_filterMap, List.filterMap_map]
    exact List.filterMap_congr fun e he =>
      view_attempt_representative (hs.templates e he) limits c
  have hrounded : ∀ {s : Registry}, s.Loaded → ∀ (limits : Limits) (shift : RoundingShift),
      (s.roundingPairs.filterMap fun pair => attemptRounding limits shift pair.1 pair.2).map
          Candidate.view =
        (s.roundingPairs.map fun pair => (pair.1.declaration, pair.2.declaration)).filterMap
          fun pair => (attemptRounding limits shift (representative pair.1)
            (representative pair.2)).map Candidate.view := by
    intro s hs limits shift
    rw [List.map_filterMap, List.filterMap_map]
    refine List.filterMap_congr fun pair hpair => ?_
    have hbase := (mem_of_mem_roundingPairs hpair).1
    exact view_attemptRounding (declaration_representative _).symm (hs.templates _ hbase)
      (declaration_representative _).symm limits shift
  rw [unranked_eq h.loaded, unranked_eq h.loaded', List.map_append, List.map_append, hlimits]
  refine List.Perm.append ?_ ?_
  · have hperm := h.perm.filterMap fun p =>
      (attempt (Matcher.new r settings).limits (representative p) c).map Candidate.view
    rwa [← hplain h.loaded, ← hplain h.loaded'] at hperm
  · show (List.map _ (if settings.roundingDetection then _ else _)).Perm
      (List.map _ (if settings.roundingDetection then _ else _))
    split
    · unfold roundingCandidates
      cases roundingShift? c with
      | none => exact .refl _
      | some shift =>
        have hperm := h.roundingPairs_perm.filterMap fun pair =>
          (attemptRounding (Matcher.new r settings).limits shift (representative pair.1)
            (representative pair.2)).map Candidate.view
        rwa [← hrounded h.loaded, ← hrounded h.loaded'] at hperm
    · exact .refl _

theorem root_of_attempt {limits : Limits} {e : Entry} {c : Canon} {cand : Candidate}
    (h : attempt limits e c = some cand) : cand.root = c.source := by
  obtain ⟨t, -, hfind⟩ := Option.bind_eq_some_iff.mp h
  obtain ⟨s, -, hcand⟩ := List.exists_of_findSome?_eq_some hfind
  obtain ⟨bound, -, rfl⟩ := Option.map_eq_some_iff.mp hcand
  rfl

/-- All candidates at a node are for that node. -/
theorem root_of_mem_candidates {m : Matcher} {c : Canon} {cand : Candidate}
    (h : cand ∈ m.candidates c) : cand.root = c.source := by
  rcases mem_candidates_iff.mp h with
    ⟨e, -, hattempt⟩ | ⟨-, shift, hshift, base, variant, -, hround⟩
  · exact root_of_attempt hattempt
  · obtain ⟨plain, hplain, rfl⟩ := Option.map_eq_some_iff.mp hround
    obtain ⟨o, so, terms, k, adds, amount, rfl, rfl⟩ := roundingShift_eq_some hshift
    exact (root_of_attempt hplain :)

end Matcher

/-! ## The best candidates -/

theorem Score.le_antisymm {a b : Score} (hab : a.le b = true) (hba : b.le a = true) : a = b := by
  obtain ⟨ac, aa, ag⟩ := a
  obtain ⟨bc, ba, bg⟩ := b
  simp only [le, Bool.or_eq_true, Bool.and_eq_true, decide_eq_true_eq] at hab hba
  simp only [mk.injEq]
  omega

/-- Two lists of candidates for one node, best first, that have the same candidates. -/
structure SameRanking (found found' : List Candidate) : Prop where
  views : (found.map Candidate.view).Perm (found'.map Candidate.view)
  ranked : found.Pairwise fun a b => b.score.le a.score = true
  ranked' : found'.Pairwise fun a b => b.score.le a.score = true
  rooted : ∀ a ∈ found, ∀ b ∈ found, a.root = b.root

namespace SameRanking
open Matcher

theorem nil : SameRanking [] [] := ⟨.refl _, .nil, .nil, by simp⟩

variable {found found' : List Candidate} {top top' : Candidate} {rest rest' : List Candidate}

theorem symm (h : SameRanking found found') : SameRanking found' found := by
  refine ⟨h.views.symm, h.ranked', h.ranked, ?_⟩
  have hroot : ∀ a ∈ found', ∃ b ∈ found, b.root = a.root := by
    intro a ha
    obtain ⟨b, hb, heq⟩ := List.mem_map.mp (h.views.mem_iff.mpr (List.mem_map_of_mem ha))
    exact ⟨b, hb, congrArg Candidate.View.root heq⟩
  intro a ha b hb
  obtain ⟨x, hx, hxa⟩ := hroot a ha
  obtain ⟨y, hy, hyb⟩ := hroot b hb
  rw [← hxa, ← hyb]
  exact h.rooted x hx y hy

theorem eq_nil_iff (h : SameRanking found found') : found = [] ↔ found' = [] := by
  have hlen := h.views.length_eq
  rw [List.length_map, List.length_map] at hlen
  rw [← List.length_eq_zero_iff, ← List.length_eq_zero_iff, hlen]

theorem score_le_top (h : (top :: rest).Pairwise fun a b => b.score.le a.score = true)
    {c : Candidate} (hc : c ∈ top :: rest) : c.score.le top.score = true := by
  rcases List.mem_cons.mp hc with rfl | hc
  · exact (Score.le_total _ _).elim id id
  · exact (List.pairwise_cons.mp h).1 c hc

/-- The best scores are the same. -/
theorem score_eq (h : SameRanking (top :: rest) (top' :: rest')) : top'.score = top.score := by
  have hbound : ∀ {a b : Candidate} {as bs : List Candidate}, SameRanking (a :: as) (b :: bs) →
      b.score.le a.score = true := by
    intro a b as bs hab
    have hmem := hab.views.mem_iff.mpr (List.mem_map_of_mem List.mem_cons_self)
    obtain ⟨c, hc, heq⟩ := List.mem_map.mp hmem
    have hscore : c.score = b.score := congrArg Candidate.View.score heq
    rw [← hscore]
    exact score_le_top hab.ranked hc
  exact Score.le_antisymm (hbound h) (hbound h.symm)

theorem root_eq (h : SameRanking (top :: rest) (top' :: rest')) : top'.root = top.root := by
  have hmem := h.views.mem_iff.mpr (List.mem_map_of_mem List.mem_cons_self)
  obtain ⟨c, hc, heq⟩ := List.mem_map.mp hmem
  have hroot : c.root = top'.root := congrArg Candidate.View.root heq
  rw [← hroot]
  exact h.rooted c hc top List.mem_cons_self

/-- In a ranking, the candidates that share the best score stand before all others. -/
theorem takeWhile_eq_filter (h : (top :: rest).Pairwise fun a b => b.score.le a.score = true) :
    rest.takeWhile (·.score = top.score) = rest.filter (·.score = top.score) := by
  induction rest with
  | nil => rfl
  | cons c rest ih =>
    obtain ⟨htop, hrest⟩ := List.pairwise_cons.mp h
    obtain ⟨hc, htail⟩ := List.pairwise_cons.mp hrest
    have hnext : (top :: rest).Pairwise fun a b => b.score.le a.score = true :=
      List.pairwise_cons.mpr ⟨fun x hx => htop x (List.mem_cons_of_mem _ hx), htail⟩
    by_cases hscore : c.score = top.score
    · rw [List.takeWhile_cons_of_pos (by simpa using hscore),
        List.filter_cons_of_pos (by simpa using hscore), ih hnext]
    · rw [List.takeWhile_cons_of_neg (by simpa using hscore),
        List.filter_cons_of_neg (by simpa using hscore), eq_comm, List.filter_eq_nil_iff]
      intro x hx
      rw [decide_eq_true_eq]
      intro heq
      -- a later candidate with the best score would lift this one to it
      refine hscore (Score.le_antisymm (htop c List.mem_cons_self) ?_)
      rw [← heq]
      exact hc x hx

theorem tied_eq (h : (top :: rest).Pairwise fun a b => b.score.le a.score = true) :
    tied (top :: rest) =
      (((top :: rest).map Candidate.view).filter (·.score = top.score)).map
        Candidate.View.name := by
  rw [tied, takeWhile_eq_filter h, List.filter_map, List.map_map,
    List.filter_cons_of_pos (by simp [Candidate.view]), List.map_cons]
  rfl

/-- The best candidates are the same. -/
theorem best_perm (h : SameRanking (top :: rest) (top' :: rest')) :
    (((top :: rest).map Candidate.view).filter (·.score = top.score)).Perm
      (((top' :: rest').map Candidate.view).filter (·.score = top'.score)) := by
  rw [h.score_eq]
  exact h.views.filter _

/-- The definitions that share the best score are the same. -/
theorem tied_perm (h : SameRanking found found') : (tied found).Perm (tied found') := by
  cases found with
  | nil =>
    rw [h.eq_nil_iff.mp rfl]
  | cons top rest =>
    cases found' with
    | nil => cases h.eq_nil_iff.mpr rfl
    | cons top' rest' =>
      rw [tied_eq h.ranked, tied_eq h.ranked']
      exact h.best_perm.map _

/-- A best candidate that shares its score with no other is the same. -/
theorem view_eq (h : SameRanking (top :: rest) (top' :: rest'))
    (hone : ¬1 < (tied (top :: rest)).length) : top'.view = top.view := by
  have hsingle : ∀ {a : Candidate} {as : List Candidate},
      (a :: as).Pairwise (fun a b => b.score.le a.score = true) →
      ¬1 < (tied (a :: as)).length →
      ((a :: as).map Candidate.view).filter (·.score = a.score) = [a.view] := by
    intro a as hranked hlen
    rw [tied_eq hranked, List.length_map, List.map_cons,
      List.filter_cons_of_pos (by simp [Candidate.view]), List.length_cons] at hlen
    have hnone : (as.map Candidate.view).filter (·.score = a.score) = [] :=
      List.length_eq_zero_iff.mp (by omega)
    rw [List.map_cons, List.filter_cons_of_pos (by simp [Candidate.view]), hnone]
  have hone' : ¬1 < (tied (top' :: rest')).length := by
    rw [← h.tied_perm.length_eq]
    exact hone
  have hperm := h.best_perm
  rw [hsingle h.ranked hone, hsingle h.ranked' hone', List.singleton_perm_singleton] at hperm
  exact hperm.symm

/-- The better of two rankings is the same. -/
theorem better {best best' : List Candidate} (hbest : SameRanking best best')
    (hfound : SameRanking found found') :
    SameRanking (Matcher.better best found) (Matcher.better best' found') := by
  cases best with
  | nil =>
    obtain rfl := hbest.eq_nil_iff.mp rfl
    exact hfound
  | cons b bs =>
    cases best' with
    | nil => cases hbest.eq_nil_iff.mpr rfl
    | cons b' bs' =>
      cases found with
      | nil =>
        obtain rfl := hfound.eq_nil_iff.mp rfl
        exact hbest
      | cons f fs =>
        cases found' with
        | nil => cases hfound.eq_nil_iff.mpr rfl
        | cons f' fs' =>
          unfold Matcher.better
          simp only [hbest.score_eq, hfound.score_eq]
          split
          · exact hbest
          · exact hfound

end SameRanking

/-! ## Selection and cover -/

/-- The same selection: no candidate, the same one, or the same ambiguity. -/
def SameSelection : Except Failure (Option Candidate) → Except Failure (Option Candidate) → Prop
  | .ok c, .ok c' => c.map Candidate.view = c'.map Candidate.view
  | .error (.ambiguous root names), .error (.ambiguous root' names') =>
    root = root' ∧ names.Perm names'
  | _, _ => False

/-- The same ambiguity, up to the order of the names. -/
structure Ambiguity.Same (a b : Ambiguity) : Prop where
  root : a.root = b.root
  names : a.names.Perm b.names

/-- The same matches, and the same ambiguities. -/
structure Cover.Same (a b : Cover) : Prop where
  found : a.found.map Candidate.view = b.found.map Candidate.view
  ambiguous : List.Forall₂ Ambiguity.Same a.ambiguous b.ambiguous

namespace Cover.Same

theorem empty : Cover.Same {} {} := ⟨rfl, .nil⟩

theorem append {a a' b b' : Cover} (ha : a.Same a') (hb : b.Same b') :
    (a.append b).Same (a'.append b') := by
  constructor
  · unfold Cover.append
    rw [List.map_append, List.map_append, ha.found, hb.found]
  · exact List.rel_append ha.ambiguous hb.ambiguous

theorem concat {α : Type} {f f' : α → Cover} (h : ∀ x, (f x).Same (f' x)) (xs : List α) :
    (Cover.concat (xs.map f)).Same (Cover.concat (xs.map f')) := by
  induction xs with
  | nil => exact empty
  | cons x xs ih => exact (h x).append ih

end Cover.Same

namespace Matcher
open Registry

/-- A match leads to the same nodes from both candidates. -/
theorem operandNodes_eq {top top' : Candidate} (h : top'.view = top.view) (root : Canon) :
    operandNodes root top'.instruction = operandNodes root top.instruction := by
  have hoperands : top'.instruction.operands = top.instruction.operands :=
    congrArg Candidate.View.operands h
  unfold operandNodes
  rw [hoperands]

section
variable {r r' : Registry} (h : r.SameDeclarations r') (settings : MatchSettings)
include h

theorem sameRanking_candidates (c : Canon) :
    SameRanking ((Matcher.new r settings).candidates c)
      ((Matcher.new r' settings).candidates c) := by
  refine ⟨?_, pairwise_candidates _ c, pairwise_candidates _ c, ?_⟩
  · exact ((Sorting.sort_perm _ _).map _).trans
      ((views_perm h settings c).trans ((Sorting.sort_perm _ _).map _).symm)
  · intro a ha b hb
    rw [root_of_mem_candidates ha, root_of_mem_candidates hb]

/-- The search through all nodes of a form ends with the same ranking. -/
theorem sameRanking_foldl_better (cs : List Canon) {best best' : List Candidate}
    (hbest : SameRanking best best') :
    SameRanking (cs.foldl (fun acc c => better acc ((Matcher.new r settings).candidates c)) best)
      (cs.foldl (fun acc c => better acc ((Matcher.new r' settings).candidates c)) best') := by
  induction cs generalizing best best' with
  | nil => exact hbest
  | cons c cs ih => exact ih (hbest.better (sameRanking_candidates h settings c))

theorem sameSelection_select (t : ExprTree) :
    SameSelection ((Matcher.new r settings).select t) ((Matcher.new r' settings).select t) := by
  have hbest := sameRanking_foldl_better h settings (Canon.ofExpr t.root).preorder .nil
  unfold select
  revert hbest
  generalize (Canon.ofExpr t.root).preorder.foldl
    (fun acc c => better acc ((Matcher.new r settings).candidates c)) [] = best
  generalize (Canon.ofExpr t.root).preorder.foldl
    (fun acc c => better acc ((Matcher.new r' settings).candidates c)) [] = best'
  intro hbest
  cases best with
  | nil =>
    obtain rfl := hbest.eq_nil_iff.mp rfl
    exact rfl
  | cons top rest =>
    cases best' with
    | nil => cases hbest.eq_nil_iff.mpr rfl
    | cons top' rest' =>
      have htied := hbest.tied_perm
      simp only [← htied.length_eq]
      by_cases hmany : 1 < (tied (top :: rest)).length
      · rw [if_pos hmany, if_pos hmany]
        exact ⟨hbest.root_eq.symm, htied⟩
      · rw [if_neg hmany, if_neg hmany]
        show some top.view = some top'.view
        rw [hbest.view_eq hmany]

/-- One step of tiling finds the same, and so do all steps below it. -/
theorem sameCover_coverFrom (root : Canon) (steps : Nat) (c : Canon) :
    ((Matcher.new r settings).coverFrom root steps c).Same
      ((Matcher.new r' settings).coverFrom root steps c) := by
  induction steps generalizing c with
  | zero => exact .empty
  | succ steps ih =>
    have hranking := sameRanking_candidates h settings c
    unfold coverFrom
    revert hranking
    generalize (Matcher.new r settings).candidates c = found
    generalize (Matcher.new r' settings).candidates c = found'
    intro hranking
    cases found with
    | nil =>
      obtain rfl := hranking.eq_nil_iff.mp rfl
      exact .concat ih _
    | cons top rest =>
      cases found' with
      | nil => cases hranking.eq_nil_iff.mpr rfl
      | cons top' rest' =>
        have htied := hranking.tied_perm
        simp only [← htied.length_eq]
        by_cases hmany : 1 < (tied (top :: rest)).length
        · rw [if_pos hmany, if_pos hmany]
          refine Cover.Same.append ⟨rfl, ?_⟩ (.concat ih _)
          exact .cons ⟨hranking.root_eq.symm, htied⟩ .nil
        · rw [if_neg hmany, if_neg hmany]
          have hview := hranking.view_eq hmany
          rw [operandNodes_eq hview]
          refine Cover.Same.append ⟨?_, .nil⟩ (.concat ih _)
          show [top.view] = [top'.view]
          rw [hview]

theorem sameCover_cover (t : ExprTree) :
    ((Matcher.new r settings).cover t).Same ((Matcher.new r' settings).cover t) :=
  sameCover_coverFrom h settings _ _ _

end
end Matcher

/-- **The order of declaration is irrelevant.** Extensions in another order, with their instructions
in another order, are loaded or refused alike. If they are loaded, every word is decoded as the same
definition with the same operand values or refused in both, every definition encodes the same words
and fails alike, and at every tree the same matches are selected, the same matches tile it, and the
same ambiguities are reported, with the names in some order. -/
theorem load_order_irrelevant {xs ys : List Extension} (h : Extension.Rearranged xs ys)
    (settings : RegistrySettings) :
    ((∃ r, Registry.load settings xs = .ok r) ↔ ∃ r, Registry.load settings ys = .ok r) ∧
    ∀ r r', Registry.load settings xs = .ok r → Registry.load settings ys = .ok r' →
      (∀ w, (r.decode w).map (fun d => (d.entry.name, d.bindings)) =
        (r'.decode w).map fun d => (d.entry.name, d.bindings)) ∧
      (∀ name b, (r.find? name).map (r.encode · b) = (r'.find? name).map (r'.encode · b)) ∧
      ∀ (matching : MatchSettings) (t : ExprTree),
        SameSelection ((Matcher.new r matching).select t) ((Matcher.new r' matching).select t) ∧
        ((Matcher.new r matching).cover t).Same ((Matcher.new r' matching).cover t) := by
  refine ⟨Registry.load_ok_iff_of_rearranged h settings, ?_⟩
  intro r r' hload hload'
  have hsame := Registry.sameDeclarations_of_load h hload hload'
  exact ⟨hsame.decode_eq, hsame.encode_find?_eq, fun matching t =>
    ⟨Matcher.sameSelection_select hsame matching t, Matcher.sameCover_cover hsame matching t⟩⟩

/-- The negated conjunction of another vendor, in another place. -/
def Bundled.nandTwin : Extension :=
  { Bundled.xrv with
    label := "twin"
    instructions := Bundled.xrv.instructions.map fun d =>
      { d with layout := .registerForm 43 6 74 } }

/-- Two vendors declare the same operation: in either order it is an ambiguity between them, which
lists them as they were loaded. -/
theorem load_order_irrelevant_twins :
    ∃ r r' t root names names', Registry.load {} [Bundled.xrv, Bundled.nandTwin] = .ok r ∧
      Registry.load {} [Bundled.nandTwin, Bundled.xrv] = .ok r' ∧
      ExprTree.ofText (.ofList [("x", .i32), ("y", .i32)]) "~(x & y)" = .ok t ∧
      (Matcher.new r {}).select t = .error (.ambiguous root names) ∧
      (Matcher.new r' {}).select t = .error (.ambiguous root names') ∧ names.Perm names' ∧
      names = ["xrv.nand", "twin.nand"] ∧ names' = ["twin.nand", "xrv.nand"] := by
  have hrun : (Registry.load {} [Bundled.xrv, Bundled.nandTwin]).toOption.any (fun r =>
      (Registry.load {} [Bundled.nandTwin, Bundled.xrv]).toOption.any fun r' =>
        (ExprTree.ofText (.ofList [("x", .i32), ("y", .i32)]) "~(x & y)").toOption.any fun t =>
          match (Matcher.new r {}).select t, (Matcher.new r' {}).select t with
          | .error (.ambiguous _ names), .error (.ambiguous _ names') =>
            names = ["xrv.nand", "twin.nand"] && names' = ["twin.nand", "xrv.nand"]
          | _, _ => false) = true := by
    decide +kernel
  obtain ⟨r, hload, hrun⟩ := Option.any_eq_true _ _ |>.mp hrun
  obtain ⟨r', hload', hrun⟩ := Option.any_eq_true _ _ |>.mp hrun
  obtain ⟨t, htext, hrun⟩ := Option.any_eq_true _ _ |>.mp hrun
  have hload := eq_ok_of_toOption hload
  have hload' := eq_ok_of_toOption hload'
  have hswap : Extension.Rearranged [Bundled.xrv, Bundled.nandTwin]
      [Bundled.nandTwin, Bundled.xrv] :=
    ⟨_, .swap _ _ _, .cons ⟨rfl, rfl, .refl _⟩ (.cons ⟨rfl, rfl, .refl _⟩ .nil)⟩
  obtain ⟨-, -, hmatching⟩ := (load_order_irrelevant hswap {}).2 r r' hload hload'
  have hselect := (hmatching {} t).1
  split at hrun
  · rename_i root names root' names' hsel hsel'
    rw [Bool.and_eq_true, decide_eq_true_iff, decide_eq_true_iff] at hrun
    rw [hsel, hsel'] at hselect
    obtain ⟨rfl, hperm⟩ := hselect
    exact ⟨r, r', t, root, names, names', hload, hload', eq_ok_of_toOption htext, hsel, hsel',
      hperm, hrun⟩
  · cases hrun

end CustomIsa
