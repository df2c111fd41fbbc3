import CustomIsa.Proofs.Match.LoadOrder
import CustomIsa.Proofs.Match.Select
/-! # Selecting takes the best candidate

`Matcher.select` goes through the nodes of a form and keeps the ranking of the node that leads so
far: the first one where some candidate has the best score of all candidates seen
(`Matcher.Leads`). One more node either leaves the lead where it is or takes it
(`Matcher.keepsLead_better`). What is selected at the end is settled by the candidates with the best
score at the leading node. In a loaded registry they are candidates of different definitions
(`Matcher.nodup_names_candidates`), so a single one of them is the answer, and several are an
ambiguity between that many definitions. -/
namespace CustomIsa
open Match

/-! ## One candidate for each definition -/

namespace Match
open Registry

section Loaded
variable {config : RegistrySettings} {extensions : List Extension} {r : Registry}
  (hload : load config extensions = .ok r)
include hload

theorem nodup_names_roundingCandidates (limits : Limits) (c : Canon) :
    ((roundingCandidates limits r c).map Candidate.name).Nodup := by
  unfold roundingCandidates
  split
  · exact .nil
  · refine List.pairwise_map.mpr (List.pairwise_filterMap.mpr ?_)
    refine (loaded_of_load hload).pairwise_roundingPairs.imp
      fun {p q} hne cand hcand cand' hcand' => ?_
    obtain ⟨plain, -, rfl⟩ := Option.map_eq_some_iff.mp hcand
    obtain ⟨plain', -, rfl⟩ := Option.map_eq_some_iff.mp hcand'
    exact hne

/-- A definition with a template is not a rounding form. -/
theorem names_apart {limits : Limits} {c : Canon} {cand cand' : Candidate}
    (h : cand ∈ r.entries.filterMap (attempt limits · c))
    (h' : cand' ∈ roundingCandidates limits r c) : cand.name ≠ cand'.name := by
  intro hname
  obtain ⟨e, he, hattempt⟩ := List.mem_filterMap.mp h
  obtain ⟨shift, -, base, variant, hpair, hround⟩ :=
    Matcher.mem_roundingCandidates.mp h'
  obtain ⟨plain, -, rfl⟩ := Option.map_eq_some_iff.mp hround
  have hr := loaded_of_load hload
  obtain ⟨hbase, hvariant, hrounds⟩ := hr.mem_roundingPairs_iff.mp hpair
  obtain ⟨-, hnone, -⟩ := rounds_of_load hload hbase hvariant hrounds
  obtain ⟨t, ht, -⟩ := Option.bind_eq_some_iff.mp hattempt
  have hentry : e.name = variant.name :=
    (congrArg Entry.name (entry_of_attempt hattempt)).symm.trans hname
  obtain rfl := List.inj_on_of_nodup_map hr.wellFormed.named he hvariant hentry
  cases hnone.symm.trans ht

end Loaded
end Match

namespace Matcher
open Registry

/-- **In a loaded registry no definition has two candidates at a node.** -/
theorem nodup_names_candidates {config : RegistrySettings} {extensions : List Extension}
    {r : Registry} (hload : load config extensions = .ok r) (settings : MatchSettings) (c : Canon) :
    (((Matcher.new r settings).candidates c).map Candidate.name).Nodup := by
  have hr := loaded_of_load hload
  have hperm := (Sorting.sort_perm (fun a b : Candidate => b.score.le a.score)
    ((Matcher.new r settings).unranked c)).map Candidate.name
  have hplain := (sublist_names_attempt (Matcher.new r settings).limits c r.entries).nodup
    hr.wellFormed.named
  rw [candidates, hperm.nodup_iff, unranked_eq hr, List.map_append]
  split
  · refine List.nodup_append.mpr ⟨hplain, nodup_names_roundingCandidates hload _ c, ?_⟩
    intro name hname name' hname'
    obtain ⟨cand, hcand, rfl⟩ := List.mem_map.mp hname
    obtain ⟨cand', hcand', rfl⟩ := List.mem_map.mp hname'
    exact names_apart hload hcand hcand'
  · rw [List.map_nil, List.append_nil]
    exact hplain

/-! ## The node that leads -/

/-- The candidates at a node that have a given score. -/
def scoring (m : Matcher) (n : Canon) (s : Score) : List Candidate :=
  (m.candidates n).filter (·.score = s)

/-- Among some nodes, the first one where a candidate has the best score of all candidates. -/
structure Leads (m : Matcher) (nodes : List Canon) (n : Canon) (s : Score) : Prop where
  first : ∃ before after, nodes = before ++ n :: after ∧ ∀ c ∈ before, m.scoring c s = []
  attained : m.scoring n s ≠ []
  greatest : ∀ c ∈ nodes, ∀ cand ∈ m.candidates c, cand.score.le s = true

variable {m : Matcher}

theorem mem_scoring {n : Canon} {s : Score} {cand : Candidate} :
    cand ∈ m.scoring n s ↔ cand ∈ m.candidates n ∧ cand.score = s := by
  rw [scoring, List.mem_filter, decide_eq_true_iff]

theorem scoring_eq_nil_iff {n : Canon} {s : Score} :
    m.scoring n s = [] ↔ ∀ cand ∈ m.candidates n, cand.score ≠ s := by
  rw [scoring, List.filter_eq_nil_iff]
  simp only [decide_eq_true_eq, ne_eq]

namespace Leads
variable {nodes : List Canon} {n n' c : Canon} {s s' : Score}

theorem mem (h : m.Leads nodes n s) : n ∈ nodes := by
  obtain ⟨before, after, rfl, -⟩ := h.first
  exact List.mem_append_right _ List.mem_cons_self

theorem le (h : m.Leads nodes n s) (h' : m.Leads nodes n' s') : s'.le s = true := by
  obtain ⟨cand, hcand⟩ := List.exists_mem_of_ne_nil _ h'.attained
  obtain ⟨hmem, rfl⟩ := mem_scoring.mp hcand
  exact h.greatest n' h'.mem cand hmem

/-- Only one node leads. -/
theorem unique (h : m.Leads nodes n s) (h' : m.Leads nodes n' s') : n = n' ∧ s = s' := by
  obtain rfl : s = s' := Score.le_antisymm (h'.le h) (h.le h')
  refine ⟨?_, rfl⟩
  obtain ⟨before, after, rfl, hbefore⟩ := h.first
  obtain ⟨before', after', hsplit, hbefore'⟩ := h'.first
  -- if one node stood before the other, it would have no candidate of that score
  rcases List.append_eq_append_iff.mp hsplit with ⟨gap, rfl, hgap⟩ | ⟨gap, rfl, hgap⟩
  · cases gap with
    | nil => exact (List.cons.inj hgap).1
    | cons c gap =>
      obtain ⟨rfl, -⟩ := List.cons.inj hgap
      exact absurd (hbefore' n (by simp)) h.attained
  · cases gap with
    | nil => exact (List.cons.inj hgap).1.symm
    | cons c gap =>
      obtain ⟨rfl, -⟩ := List.cons.inj hgap
      exact absurd (hbefore n' (by simp)) h'.attained

/-- The lead stays where it is unless a candidate at the next node is better. -/
theorem append (h : m.Leads nodes n s)
    (hc : ∀ cand ∈ m.candidates c, cand.score.le s = true) : m.Leads (nodes ++ [c]) n s := by
  obtain ⟨before, after, rfl, hbefore⟩ := h.first
  refine ⟨⟨before, after ++ [c], by simp, hbefore⟩, h.attained, ?_⟩
  intro d hd
  rcases List.mem_append.mp hd with hd | hd
  · exact h.greatest d hd
  · obtain rfl := List.mem_singleton.mp hd
    exact hc

/-- The first candidate at a leading node has the best score. -/
theorem score_top (h : m.Leads nodes n s) {top : Candidate} {rest : List Candidate}
    (htop : m.candidates n = top :: rest) : top.score = s := by
  obtain ⟨cand, hcand⟩ := List.exists_mem_of_ne_nil _ h.attained
  obtain ⟨hmem, rfl⟩ := mem_scoring.mp hcand
  have hranked := pairwise_candidates m n
  rw [htop] at hmem hranked
  refine Score.le_antisymm (h.greatest n h.mem top ?_) (SameRanking.score_le_top hranked hmem)
  rw [htop]
  exact List.mem_cons_self

end Leads

/-- A node takes the lead if all candidates before it are worse than its first one. -/
theorem leads_last {nodes : List Canon} {c : Canon} {top : Candidate} {rest : List Candidate}
    (htop : m.candidates c = top :: rest)
    (hworse : ∀ d ∈ nodes, ∀ cand ∈ m.candidates d, top.score.le cand.score = false) :
    m.Leads (nodes ++ [c]) c top.score := by
  have hranked := pairwise_candidates m c
  rw [htop] at hranked
  have hrefl : top.score.le top.score = true := (Score.le_total _ _).elim id id
  refine ⟨⟨nodes, [], rfl, fun d hd => ?_⟩, ?_, fun d hd cand hcand => ?_⟩
  · refine scoring_eq_nil_iff.mpr fun cand hcand heq => ?_
    have hfalse := hworse d hd cand hcand
    rw [heq, hrefl] at hfalse
    cases hfalse
  · refine List.ne_nil_of_mem (mem_scoring.mpr ⟨?_, rfl⟩)
    rw [htop]
    exact List.mem_cons_self
  · rcases List.mem_append.mp hd with hd | hd
    · refine (Score.le_total _ _).resolve_right ?_
      rw [hworse d hd cand hcand]
      exact Bool.false_ne_true
    · obtain rfl := List.mem_singleton.mp hd
      rw [htop] at hcand
      exact SameRanking.score_le_top hranked hcand

/-- The search keeps the ranking of the node that leads among those seen, if there is any. -/
inductive KeepsLead (m : Matcher) (nodes : List Canon) : List Candidate → Prop where
  | none (h : ∀ c ∈ nodes, m.candidates c = []) : KeepsLead m nodes []
  | leads {n : Canon} {s : Score} (h : m.Leads nodes n s) : KeepsLead m nodes (m.candidates n)

/-- One more node: the better ranking is that of the node that leads from now on. -/
theorem keepsLead_better {nodes : List Canon} {best : List Candidate} (h : m.KeepsLead nodes best)
    (c : Canon) : m.KeepsLead (nodes ++ [c]) (better best (m.candidates c)) := by
  cases h with
  | none h =>
    cases htop : m.candidates c with
    | nil =>
      refine .none fun d hd => ?_
      rcases List.mem_append.mp hd with hd | hd
      · exact h d hd
      · obtain rfl := List.mem_singleton.mp hd
        exact htop
    | cons top rest =>
      rw [better, ← htop]
      refine .leads (leads_last htop fun d hd cand hcand => ?_)
      rw [h d hd] at hcand
      cases hcand
  | @leads n s h =>
    cases hbest : m.candidates n with
    | nil =>
      obtain ⟨cand, hcand⟩ := List.exists_mem_of_ne_nil _ h.attained
      rw [scoring, hbest] at hcand
      cases hcand
    | cons b bs =>
      obtain rfl := h.score_top hbest
      cases htop : m.candidates c with
      | nil =>
        rw [better, ← hbest]
        · refine .leads (h.append fun cand hcand => ?_)
          rw [htop] at hcand
          cases hcand
        · exact List.cons_ne_nil b bs
      | cons top rest =>
        have hranked := pairwise_candidates m c
        rw [htop] at hranked
        rw [better]
        by_cases hle : top.score.le b.score = true
        · rw [if_pos hle, ← hbest]
          refine .leads (h.append fun cand hcand => ?_)
          rw [htop] at hcand
          exact Score.le_trans (SameRanking.score_le_top hranked hcand) hle
        · rw [if_neg hle, ← htop]
          refine .leads (leads_last htop fun d hd cand hcand => ?_)
          exact Bool.eq_false_iff.mpr fun hworse =>
            hle (Score.le_trans hworse (h.greatest d hd cand hcand))

/-- The search through all nodes ends with the ranking of the node that leads. -/
theorem keepsLead_foldl {seen : List Canon} {best : List Candidate} (h : m.KeepsLead seen best)
    (cs : List Canon) :
    m.KeepsLead (seen ++ cs) (cs.foldl (fun acc c => better acc (m.candidates c)) best) := by
  induction cs generalizing seen best with
  | nil =>
    rw [List.append_nil]
    exact h
  | cons c cs ih =>
    rw [List.append_cons]
    exact ih (keepsLead_better h c)

theorem keepsLead_all (nodes : List Canon) :
    m.KeepsLead nodes (nodes.foldl (fun acc c => better acc (m.candidates c)) []) := by
  have hstart : m.KeepsLead [] [] := .none (by simp)
  exact keepsLead_foldl hstart nodes

/-! ## The selection -/

/-- An answer that does justice to the candidates at some nodes. There is none if there are no
candidates. Otherwise some node leads: a single candidate with the best score there is the answer,
and several are an ambiguity between their definitions, which are all different. So a candidate in
the answer is not outscored by any other. -/
structure Optimal (m : Matcher) (nodes : List Canon) (answer : Except Failure (Option Candidate)) :
    Prop where
  none : answer = .ok none ↔ ∀ n ∈ nodes, m.candidates n = []
  leads : (∀ n ∈ nodes, m.candidates n = []) ∨ ∃ n s, m.Leads nodes n s
  single : ∀ n s, m.Leads nodes n s → (m.scoring n s).length < 2 →
    ∃ c, m.scoring n s = [c] ∧ answer = .ok (some c)
  ambiguous : ∀ n s, m.Leads nodes n s → 2 ≤ (m.scoring n s).length →
    answer = .error (.ambiguous n.source ((m.scoring n s).map Candidate.name))
  different : ∀ n s, m.Leads nodes n s → ((m.scoring n s).map Candidate.name).Nodup
  unbeaten : ∀ c, answer = .ok (some c) →
    ∀ n ∈ nodes, ∀ other ∈ m.candidates n, other.score.le c.score = true

/-- The candidates with the best score stand first at a leading node. -/
theorem Leads.scoring_eq {nodes : List Canon} {n : Canon} {s : Score} (h : m.Leads nodes n s) :
    ∃ top rest, m.candidates n = top :: rest ∧
      m.scoring n s = top :: rest.takeWhile (·.score = top.score) := by
  cases htop : m.candidates n with
  | nil =>
    refine absurd ?_ h.attained
    rw [scoring, htop]
    rfl
  | cons top rest =>
    have hranked := pairwise_candidates m n
    rw [htop] at hranked
    refine ⟨top, rest, rfl, ?_⟩
    rw [SameRanking.takeWhile_eq_filter hranked, scoring, htop, ← h.score_top htop,
      List.filter_cons_of_pos (by simp)]

/-- Some node leads, unless there are no candidates. -/
theorem leads_or_none (m : Matcher) (nodes : List Canon) :
    (∀ n ∈ nodes, m.candidates n = []) ∨ ∃ n s, m.Leads nodes n s := by
  have hlead : m.KeepsLead nodes _ := keepsLead_all nodes
  generalize nodes.foldl (fun acc c => better acc (m.candidates c)) [] = best at hlead
  cases hlead with
  | none h => exact .inl h
  | @leads n s h => exact .inr ⟨n, s, h⟩

/-- Selecting looks at nothing but the best candidates at the leading node. -/
theorem Leads.select_eq {t : ExprTree} {n : Canon} {s : Score}
    (h : m.Leads (Canon.ofExpr t.root).preorder n s) :
    ∃ top rest, m.scoring n s = top :: rest ∧ m.select t =
      if 1 < (m.scoring n s).length then
        .error (.ambiguous n.source ((m.scoring n s).map Candidate.name))
      else .ok (some top) := by
  obtain ⟨top, rest, htop, hscoring⟩ := h.scoring_eq
  refine ⟨top, _, hscoring, ?_⟩
  have hbest : (Canon.ofExpr t.root).preorder.foldl
      (fun acc c => better acc (m.candidates c)) [] = m.candidates n := by
    have hlead : m.KeepsLead _ _ := keepsLead_all (Canon.ofExpr t.root).preorder
    generalize (Canon.ofExpr t.root).preorder.foldl
      (fun acc c => better acc (m.candidates c)) [] = best at hlead
    cases hlead with
    | none hnone =>
      rw [hnone n h.mem] at htop
      cases htop
    | leads h' => rw [(h.unique h').1]
  have hroot : top.root = n.source := by
    apply root_of_mem_candidates (m := m)
    rw [htop]
    exact List.mem_cons_self
  have htied : tied (top :: rest) = (m.scoring n s).map Candidate.name := by
    rw [hscoring, tied, List.map_cons]
  rw [select, hbest, htop]
  simp only [htied, hroot, List.length_map]

/-- **Selecting is optimal and reports ties.** In a loaded registry, with any settings and at every
tree, what is selected does justice to the candidates at the nodes of the canonical form, in
preorder. -/
theorem optimal_select {config : RegistrySettings} {extensions : List Extension} {r : Registry}
    (hload : load config extensions = .ok r) (settings : MatchSettings) (t : ExprTree) :
    (Matcher.new r settings).Optimal (Canon.ofExpr t.root).preorder
      ((Matcher.new r settings).select t) where
  none := select_eq_none_iff_preorder
  leads := leads_or_none _ _
  single n s h hone := by
    obtain ⟨top, rest, hscoring, hselect⟩ := h.select_eq
    rw [if_neg (by omega)] at hselect
    rw [hscoring, List.length_cons] at hone
    obtain rfl : rest = [] := List.length_eq_zero_iff.mp (by omega)
    exact ⟨top, hscoring, hselect⟩
  ambiguous n s h hmany := by
    obtain ⟨top, rest, -, hselect⟩ := h.select_eq
    rw [hselect, if_pos (by omega)]
  different n s _ :=
    (nodup_names_candidates hload settings n).sublist (List.filter_sublist.map _)
  unbeaten c hc n hn other hother := by
    rcases leads_or_none (Matcher.new r settings) (Canon.ofExpr t.root).preorder with
      hnone | ⟨lead, s, h⟩
    · rw [hnone n hn] at hother
      cases hother
    · obtain ⟨top, rest, hscoring, hselect⟩ := h.select_eq
      rw [hc] at hselect
      split at hselect
      · cases hselect
      · obtain rfl := Option.some.inj (Except.ok.inj hselect)
        have hscore : c.score = s := (mem_scoring.mp (hscoring ▸ List.mem_cons_self)).2
        rw [hscore]
        exact h.greatest n hn other hother

/-- Two vendors declare the same operation, which stands on both sides of a product: the side that
comes first leads, and its candidates of both vendors are an ambiguity. -/
theorem optimal_select_twins :
    ∃ r t n s, load {} [Bundled.xrv, Bundled.nandTwin] = .ok r ∧
      ExprTree.ofText (.ofList [("w", .i32), ("x", .i32), ("y", .i32), ("z", .i32)])
        "~(w & x) * ~(y & z)" = .ok t ∧
      (Matcher.new r {}).Leads (Canon.ofExpr t.root).preorder n s ∧ n.source = 3 ∧
      ((Matcher.new r {}).scoring n s).map Candidate.name = ["xrv.nand", "twin.nand"] ∧
      (Matcher.new r {}).select t = .error (.ambiguous 3 ["xrv.nand", "twin.nand"]) := by
  have hrun : (load {} [Bundled.xrv, Bundled.nandTwin]).toOption.any (fun r =>
      (ExprTree.ofText (.ofList [("w", .i32), ("x", .i32), ("y", .i32), ("z", .i32)])
        "~(w & x) * ~(y & z)").toOption.any fun t =>
          ((Matcher.new r {}).select t).map (fun _ => ()) =
            .error (.ambiguous 3 ["xrv.nand", "twin.nand"])) = true := by
    decide +kernel
  obtain ⟨r, hload, hrun⟩ := Option.any_eq_true _ _ |>.mp hrun
  obtain ⟨t, htext, hrun⟩ := Option.any_eq_true _ _ |>.mp hrun
  have hload := eq_ok_of_toOption hload
  have hselect := map_eq_error (of_decide_eq_true hrun)
  have hoptimal := optimal_select hload {} t
  rcases hoptimal.leads with hnone | ⟨n, s, h⟩
  · cases hselect.symm.trans (hoptimal.none.mpr hnone)
  · by_cases hone : ((Matcher.new r {}).scoring n s).length < 2
    · obtain ⟨c, -, hc⟩ := hoptimal.single n s h hone
      cases hselect.symm.trans hc
    · have hambiguous := hselect.symm.trans (hoptimal.ambiguous n s h (by omega))
      injection hambiguous with hfailure
      injection hfailure with hsource hnames
      exact ⟨r, t, n, s, hload, eq_ok_of_toOption htext, h, hsource.symm, hnames.symm, hselect⟩

end Matcher
end CustomIsa
