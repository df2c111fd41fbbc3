import CustomIsa.Proofs.Canon.Visible
import CustomIsa.Proofs.Match.Candidate
/-! # What selecting looks at

`Matcher.select` goes through the nodes of the canonical form of a whole tree, and finds nothing
exactly if there is no candidate at any visible expression (`Matcher.select_eq_none_iff`). Whether
there are candidates at a node does not depend on its origin: templates are rooted at operators, so
operands meet only what is below the node. Expressions that are not visible are not looked at
(`Matcher.select_blind_to_nested_sum`). -/
namespace CustomIsa

theorem Canon.Same.shape_eq {c d : Canon} (h : c.Same d) : c.shape? = d.shape? := by
  rw [h.eq_withOrigin]
  cases c <;> rfl

namespace Match
variable {limits : Limits}

/-- An alignment of an operator does not depend on the origin of the node. -/
theorem Aligned.of_same {t : Template} {c d : Canon} {ms : List (Operand × Slot)}
    (h : Aligned limits t c ms) (ht : t.isOperator = true) (hsame : c.Same d) :
    Aligned limits t d ms := by
  have hguards : ∀ {guards}, GuardsHold limits guards c → GuardsHold limits guards d := by
    intro guards hg g hmem
    rw [← hsame.info, ← hsame.ty]
    exact hg g hmem
  have hd := hsame.eq_withOrigin
  cases h with
  | register | immediate | const => cases ht
  | monadic hg ha =>
    rw [hd] at hguards ⊢
    exact .monadic (hguards hg) ha
  | direct hg ha hb =>
    rw [hd] at hguards ⊢
    exact .direct (hguards hg) ha hb
  | swapped hg hcomm hb ha =>
    rw [hd] at hguards ⊢
    exact .swapped (hguards hg) hcomm hb ha
  | sum hg hcount hpaired hconst hterms =>
    rw [hd] at hguards ⊢
    exact .sum (hguards hg) hcount hpaired hconst hterms

/-- The template of an entry, if it has one, is rooted at an operator. -/
def Rooted (e : Entry) : Prop := ∀ t, e.template = some t → t.isOperator = true

theorem attempt_eq_none_of_same {e : Entry} (he : Rooted e) {c d : Canon} (hsame : c.Same d)
    (h : attempt limits e c = none) : attempt limits e d = none := by
  cases ht : e.template with
  | none => rw [attempt, ht, Option.bind_none]
  | some t =>
    by_contra hsome
    obtain ⟨ms, slots, haligned, hmeet, hbound⟩ :=
      (attempt_isSome_iff ht).mp (Option.isSome_iff_ne_none.mpr hsome)
    have hc := (attempt_isSome_iff ht).mpr
      ⟨ms, slots, haligned.of_same (he t ht) hsame.symm, hmeet, hbound⟩
    rw [h] at hc
    cases hc

/-- A rounding shift is one whatever the origin of the node. -/
theorem roundingShift_of_same {c d : Canon} (hsame : c.Same d) {shift : RoundingShift}
    (h : roundingShift? d = some shift) :
    ∃ shift', roundingShift? c = some shift' ∧ shift'.stripped.Same shift.stripped := by
  have hc := hsame.symm.eq_withOrigin
  have hinfo := hsame.info
  have hty := hsame.ty
  unfold roundingShift? at h
  split at h
  · rename_i o so terms constant adds amount
    split at h
    · rename_i k hk
      split at h
      · rename_i hround
        obtain rfl := Option.some.inj h
        rw [hc]
        simp only [Canon.withOrigin, roundingShift?, hk, if_pos hround]
        exact ⟨_, rfl, fun _ => rfl, hinfo, hty⟩
      · cases h
    · cases h
  · cases h

theorem roundingCandidates_eq_nil_iff {r : Registry} {c : Canon} :
    roundingCandidates limits r c = [] ↔
      ∀ shift, roundingShift? c = some shift → ∀ pair ∈ r.roundingPairs,
        attempt limits pair.1 shift.stripped = none := by
  rw [roundingCandidates]
  cases roundingShift? c with
  | none => simp
  | some shift => simp [attemptRounding, List.filterMap_eq_nil_iff]

theorem roundingCandidates_eq_nil_of_same {r : Registry} (hr : ∀ e ∈ r.entries, Rooted e)
    {c d : Canon} (hsame : c.Same d) (h : roundingCandidates limits r c = []) :
    roundingCandidates limits r d = [] := by
  rw [roundingCandidates_eq_nil_iff] at h ⊢
  intro shift hshift pair hpair
  obtain ⟨shift', hshift', hstripped⟩ := roundingShift_of_same hsame hshift
  have hbase := (Registry.mem_of_mem_roundingPairs hpair).1
  exact attempt_eq_none_of_same (hr _ hbase) hstripped (h shift' hshift' _ hpair)

end Match

namespace Matcher
open Match
variable {m : Matcher}

theorem candidates_eq_nil_iff {c : Canon} :
    m.candidates c = [] ↔ (∀ e ∈ m.shaped c, attempt m.limits e c = none) ∧
      (m.settings.roundingDetection = true → roundingCandidates m.limits m.registry c = []) := by
  have hempty : m.candidates c = [] ↔ m.unranked c = [] := by
    rw [← List.length_eq_zero_iff, candidates, (Sorting.sort_perm _ _).length_eq,
      List.length_eq_zero_iff]
  rw [hempty, unranked, List.append_eq_nil_iff, List.filterMap_eq_nil_iff]
  refine and_congr_right fun _ => ?_
  split <;> simp_all

/-- Whether there are candidates at a node does not depend on its origin. -/
theorem candidates_eq_nil_of_same (hm : ∀ e ∈ m.registry.entries, Rooted e) {c d : Canon}
    (hsame : c.Same d) (h : m.candidates c = []) : m.candidates d = [] := by
  rw [candidates_eq_nil_iff, shaped, hsame.shape_eq, ← shaped] at h
  rw [candidates_eq_nil_iff]
  exact ⟨fun e he => attempt_eq_none_of_same (hm e (mem_of_mem_shaped he)) hsame (h.1 e he),
    fun hround => roundingCandidates_eq_nil_of_same hm hsame (h.2 hround)⟩

/-- Nothing matches a constant. -/
theorem candidates_eq_nil_of_constant {c : Canon} (hc : c.constant?.isSome = true) :
    m.candidates c = [] := by
  rw [candidates_eq_nil_iff, roundingCandidates_eq_nil_iff]
  cases c with
  | const => exact ⟨by simp [shaped, Canon.shape?], fun _ shift hshift => by cases hshift⟩
  | var | monadic | dyadic | select | sum => cases hc

/-! ## The search for the best candidate -/

theorem better_eq_nil_iff {best found : List Candidate} :
    better best found = [] ↔ best = [] ∧ found = [] := by
  cases best with
  | nil => simp [better]
  | cons b best =>
    cases found with
    | nil => simp [better]
    | cons f found =>
      rw [better]
      split <;> simp

theorem foldl_better_eq_nil_iff {cs : List Canon} {best : List Candidate} :
    cs.foldl (fun acc c => better acc (m.candidates c)) best = [] ↔
      best = [] ∧ ∀ c ∈ cs, m.candidates c = [] := by
  induction cs generalizing best with
  | nil => simp
  | cons c cs ih => rw [List.foldl_cons, ih, better_eq_nil_iff, List.forall_mem_cons, and_assoc]

/-- Nothing is selected exactly if there is no candidate at any node of the canonical form. -/
theorem select_eq_none_iff_preorder {t : ExprTree} :
    m.select t = .ok none ↔ ∀ c ∈ (Canon.ofExpr t.root).preorder, m.candidates c = [] := by
  have hfold : (Canon.ofExpr t.root).preorder.foldl
      (fun acc c => better acc (m.candidates c)) [] = [] ↔
        ∀ c ∈ (Canon.ofExpr t.root).preorder, m.candidates c = [] :=
    foldl_better_eq_nil_iff.trans (and_iff_right rfl)
  rw [← hfold, select]
  cases hbest : (Canon.ofExpr t.root).preorder.foldl
      (fun acc c => better acc (m.candidates c)) [] with
  | nil => simp
  | cons top rest =>
    simp only [reduceCtorEq, iff_false]
    split <;> simp

/-- **Selecting looks at the visible expressions.** In a loaded registry and with any settings,
nothing is selected in a tree exactly if there is no candidate at any expression that is visible
from its root. -/
theorem select_eq_none_iff {config : RegistrySettings} {extensions : List Extension} {r : Registry}
    (hload : Registry.load config extensions = .ok r) (settings : MatchSettings) (t : ExprTree) :
    (Matcher.new r settings).select t = .ok none ↔
      ∀ s, t.root.Visible s → (Matcher.new r settings).matchAt s = [] := by
  have hrooted : ∀ e ∈ (Matcher.new r settings).registry.entries, Rooted e := by
    intro e he template htemplate
    obtain ⟨text, htext⟩ := (Registry.loaded_of_load hload).compiled he htemplate
    exact (Template.reads_ofText htext).2
  rw [select_eq_none_iff_preorder]
  constructor
  · intro hnone s hs
    rcases Canon.shown_of_visible hs with ⟨c, hc, hsame⟩ | hconst
    · exact candidates_eq_nil_of_same hrooted hsame (hnone c hc)
    · exact candidates_eq_nil_of_constant hconst
  · intro hnone c hc
    obtain ⟨s, hs, rfl⟩ := Canon.visible_of_mem_preorder hc
    exact hnone s hs

/-- A sum below a product is looked at: it has another constant than the template, and nothing is
selected. -/
theorem select_eq_none_iff_product :
    ∃ r t s, Registry.load {} [Bundled.xexample] = .ok r ∧
      ExprTree.ofText (.ofList [("a", .i32), ("b", .i32), ("c", .i32), ("d", .i32)])
        "(a + b - c + 2) * d" = .ok t ∧
      (Matcher.new r {}).select t = .ok none ∧ t.root.Visible s ∧ s.isAdditive = true ∧
      (Matcher.new r {}).matchAt s = [] := by
  have hrun : (Registry.load {} [Bundled.xexample]).toOption.any (fun r =>
      (ExprTree.ofText (.ofList [("a", .i32), ("b", .i32), ("c", .i32), ("d", .i32)])
        "(a + b - c + 2) * d").toOption.any fun t =>
          (((Matcher.new r {}).select t).toOption.any fun found => found.isNone) &&
            t.root.exposed.any (·.isAdditive)) = true := by
    decide +kernel
  obtain ⟨r, hload, hany⟩ := Option.any_eq_true _ _ |>.mp hrun
  obtain ⟨t, htext, hcase⟩ := Option.any_eq_true _ _ |>.mp hany
  obtain ⟨hselect, hexposed⟩ := Bool.and_eq_true_iff.mp hcase
  obtain ⟨found, hfound, hnone⟩ := Option.any_eq_true _ _ |>.mp hselect
  obtain ⟨s, hs, hadd⟩ := List.any_eq_true.mp hexposed
  obtain rfl := Option.isNone_iff_eq_none.mp hnone
  have hload := eq_ok_of_toOption hload
  have hselect := eq_ok_of_toOption hfound
  have hvisible : t.root.Visible s := .step .root hs
  exact ⟨r, t, s, hload, eq_ok_of_toOption htext, hselect, hvisible, hadd,
    (select_eq_none_iff hload {} t).mp hselect s hvisible⟩

/-- **Selecting does not look at every node.** The sum of four variables and one has no candidate,
and none of the variables has, but the sum of three of them and one, which is gathered into it, has
one. -/
theorem select_blind_to_nested_sum :
    ∃ r t n, Registry.load {} [Bundled.xexample] = .ok r ∧
      ExprTree.ofText (.ofList [("a", .i32), ("b", .i32), ("c", .i32), ("d", .i32)])
        "(a + b - c + 1) + d" = .ok t ∧
      (Matcher.new r {}).select t = .ok none ∧ n ∈ t.nodes ∧
      (Matcher.new r {}).matchAt n ≠ [] := by
  have hrun : (Registry.load {} [Bundled.xexample]).toOption.any (fun r =>
      (ExprTree.ofText (.ofList [("a", .i32), ("b", .i32), ("c", .i32), ("d", .i32)])
        "(a + b - c + 1) + d").toOption.any fun t =>
          (((Matcher.new r {}).select t).toOption.any fun found => found.isNone) &&
            t.nodes.any fun n => !((Matcher.new r {}).matchAt n).isEmpty) = true := by
    decide +kernel
  obtain ⟨r, hload, hany⟩ := Option.any_eq_true _ _ |>.mp hrun
  obtain ⟨t, htext, hcase⟩ := Option.any_eq_true _ _ |>.mp hany
  obtain ⟨hselect, hnodes⟩ := Bool.and_eq_true_iff.mp hcase
  obtain ⟨found, hfound, hnone⟩ := Option.any_eq_true _ _ |>.mp hselect
  obtain ⟨n, hn, hmatch⟩ := List.any_eq_true.mp hnodes
  obtain rfl := Option.isNone_iff_eq_none.mp hnone
  refine ⟨r, t, n, eq_ok_of_toOption hload, eq_ok_of_toOption htext, eq_ok_of_toOption hfound, hn,
    ?_⟩
  simpa using hmatch

end Matcher
end CustomIsa
