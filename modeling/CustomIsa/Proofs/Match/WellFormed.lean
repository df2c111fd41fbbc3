import CustomIsa.Proofs.Expr.Numbered
import CustomIsa.Proofs.Match.Footprint
import CustomIsa.Proofs.Match.Select
import CustomIsa.Proofs.Registry.Declared
/-! # Candidates are well formed

Whatever a matcher returns, at a node, for a whole tree or in a cover, is a candidate at some node
of the tree (`Matcher.matched_of_returns`), and every candidate is well formed
(`Candidate.WellFormed`): it binds exactly the inputs of its definition, each according to its kind,
and accounts for the source nodes that it replaces. So nothing but the choice of registers can fail
when it is lowered (`BoundInstruction.lowerFrom_eq_ok`). -/
namespace CustomIsa

/-- A candidate at a source node binds exactly the inputs of its definition, immediates to constants
in their range and registers to nodes below, and replaces the node itself. -/
structure Candidate.WellFormed (p : Expr Nat) (cand : Candidate) : Prop where
  root : cand.root = p.tag
  bound : ∀ name, (cand.binding? name).isSome = true ↔
    ∃ op ∈ cand.instruction.entry.definition.inputs, op.name = name
  immediate : ∀ op ∈ cand.instruction.entry.definition.inputs, op.kind = .immediate →
    ∃ v, cand.binding? op.name = some (.imm v) ∧ op.inRange v = true
  register : ∀ op ∈ cand.instruction.entry.definition.inputs, op.kind = .register →
    ∃ s ∈ p.preorder, cand.binding? op.name = some (.value s.tag)
  root_absorbed : cand.root ∈ cand.absorbed
  consumed : cand.consumed ⊆ cand.absorbed
  sorted : cand.absorbed.Pairwise (· < ·)
  counted : cand.score.absorbed = cand.absorbed.length
  covered : cand.score.covered = p.size

namespace Match

theorem Footprint.wellFormed {p : Expr Nat} {cand : Candidate} {slots : List (String × Slot)}
    (h : Footprint (Canon.ofExpr p) cand slots)
    (hvalid : cand.instruction.entry.definition.Valid) : cand.WellFormed p := by
  have hmet : ∀ op ∈ cand.instruction.entry.definition.inputs, ∃ slot b,
      Placed cand.instruction.entry.definition.inputs (Canon.ofExpr p) (op, slot) ∧
        (∀ v, slot = .imm v → op.inRange v = true) ∧ boundOf? slot = some b ∧
        cand.binding? op.name = some b := by
    intro op hop
    obtain ⟨slot, hslot⟩ := Option.isSome_iff_exists.mp (h.inputs op hop)
    obtain ⟨op', hname, hplaced, hrange⟩ := h.placed op.name slot hslot
    -- names are apart, so what stands under the name was met by this operand
    obtain rfl := List.inj_on_of_nodup_map hvalid.distinct (List.mem_filter.mp hplaced.mem).1
      (List.mem_filter.mp hop).1 hname
    obtain ⟨b, hb⟩ := Option.isSome_iff_exists.mp (h.bindable op'.name slot hslot)
    refine ⟨slot, b, hplaced, hrange, hb, ?_⟩
    rw [h.binding, hslot, Option.bind_some, hb]
  refine ⟨?_, fun name => ⟨fun hsome => ?_, ?_⟩, ?_, ?_, h.root_absorbed, h.consumed, h.sorted,
    h.counted, ?_⟩
  · rw [h.root, Canon.source, Canon.source_ofExpr]
  · obtain ⟨b, hb⟩ := Option.isSome_iff_exists.mp hsome
    rw [h.binding] at hb
    obtain ⟨slot, hslot, -⟩ := Option.bind_eq_some_iff.mp hb
    obtain ⟨op, hname, hplaced, -⟩ := h.placed name slot hslot
    exact ⟨op, hplaced.mem, hname⟩
  · rintro ⟨op, hop, rfl⟩
    obtain ⟨slot, b, -, -, -, hbinding⟩ := hmet op hop
    rw [hbinding]
    rfl
  · intro op hop hkind
    obtain ⟨slot, b, hplaced, hrange, hb, hbinding⟩ := hmet op hop
    cases hplaced with
    | node _ hregister => cases hkind.symm.trans hregister
    | imm _ _ v =>
      have hv := hrange v rfl
      rw [boundOf?, if_pos (Operand.inInt64_of_inRange hv)] at hb
      exact ⟨v, hbinding.trans hb.symm, hv⟩
  · intro op hop hkind
    obtain ⟨slot, b, hplaced, hrange, hb, hbinding⟩ := hmet op hop
    cases hplaced with
    | node _ _ hd =>
      obtain ⟨s, hs, rfl⟩ := Canon.form_of_mem_preorder hd
      rw [boundOf?, Canon.real_ofExpr, if_neg Bool.false_ne_true, Canon.source,
        Canon.source_ofExpr] at hb
      exact ⟨s, hs, hbinding.trans hb.symm⟩
    | imm _ himmediate => cases hkind.symm.trans himmediate
  · rw [h.covered, Canon.source_ofExpr]

end Match

/-! ## Lowering -/

/-- The assigner has a register for every operand. -/
def Assigner.NeverFails (a : Assigner) : Prop :=
  ∀ s op bound, ∃ result, a.assign s op bound = .ok result

namespace BoundInstruction

/-- Lowering operands binds each of them, immediates to their constants, and leaves other names as
they were. -/
structure Lowers (i : BoundInstruction) (ops : List Operand) (bindings out : Bindings) : Prop where
  bound : ∀ op ∈ ops, ∃ v, out.get? op.name = some v ∧
    (op.kind = .immediate → i.operands.get? op.name = some (.imm v))
  others : ∀ name, name ∉ ops.map Operand.name → out.get? name = bindings.get? name

/-- One operand is lowered to a value, and then the others are. -/
theorem Lowers.cons {i : BoundInstruction} {op : Operand} {ops : List Operand}
    {bindings out : Bindings} {v : Int} (hfresh : op.name ∉ ops.map Operand.name)
    (hv : op.kind = .immediate → i.operands.get? op.name = some (.imm v))
    (h : i.Lowers ops (bindings.insert op.name v) out) : i.Lowers (op :: ops) bindings out := by
  refine ⟨fun op' hop' => ?_, fun name hname => ?_⟩
  · rcases List.mem_cons.mp hop' with rfl | hop'
    · refine ⟨v, ?_, hv⟩
      rw [h.others _ hfresh, NameMap.get?_insert, if_pos rfl]
    · exact h.bound op' hop'
  · rw [List.map_cons, List.mem_cons, not_or] at hname
    rw [h.others name hname.2, NameMap.get?_insert, if_neg hname.1]

/-- **Operands are lowered if every immediate is bound to a constant and no register is
missing.** -/
theorem lowerFrom_eq_ok (i : BoundInstruction) {a : Assigner} (ha : a.NeverFails)
    {ops : List Operand} (hnodup : (ops.map Operand.name).Nodup)
    (himm : ∀ op ∈ ops, op.kind = .immediate → ∃ v, i.operands.get? op.name = some (.imm v))
    (s : a.State) (bindings : Bindings) :
    ∃ out, i.lowerFrom a s bindings ops = .ok out ∧ i.Lowers ops bindings out := by
  induction ops generalizing s bindings with
  | nil => exact ⟨bindings, rfl, by simp, fun _ _ => rfl⟩
  | cons op ops ih =>
    rw [List.map_cons, List.nodup_cons] at hnodup
    have hrest := fun op' hop' => himm op' (List.mem_cons_of_mem _ hop')
    cases hkind : op.kind with
    | register =>
      obtain ⟨⟨number, next⟩, hassign⟩ := ha s op (i.operands.get? op.name)
      obtain ⟨out, hout, hlowers⟩ := ih hnodup.2 hrest next (bindings.insert op.name number)
      refine ⟨out, ?_, hlowers.cons hnodup.1 (by simp [hkind])⟩
      rw [lowerFrom]
      simp only [hkind, hassign]
      exact hout
    | immediate =>
      obtain ⟨v, hv⟩ := himm op List.mem_cons_self hkind
      obtain ⟨out, hout, hlowers⟩ := ih hnodup.2 hrest s (bindings.insert op.name v)
      refine ⟨out, ?_, hlowers.cons hnodup.1 fun _ => hv⟩
      rw [lowerFrom]
      simp only [hkind, hv]
      exact hout

theorem Lowers.names {i : BoundInstruction} {ops : List Operand} {out : Bindings}
    (h : i.Lowers ops {} out) (hnodup : (ops.map Operand.name).Nodup) :
    out.names.Perm (ops.map Operand.name) := by
  refine (List.perm_ext_iff_of_nodup out.nodup_names hnodup).mpr fun name => ?_
  by_cases hname : name ∈ ops.map Operand.name
  · obtain ⟨op, hop, rfl⟩ := List.mem_map.mp hname
    obtain ⟨v, hv, -⟩ := h.bound op hop
    refine iff_of_true ?_ hname
    by_contra hnone
    rw [(NameMap.get?_eq_none_iff _ _).mpr hnone] at hv
    cases hv
  · refine iff_of_false ?_ hname
    exact (NameMap.get?_eq_none_iff _ _).mp (h.others name hname)

end BoundInstruction

/-! ## Where candidates come from -/

namespace Matcher
open Match

section Loaded
variable {config : RegistrySettings} {extensions : List Extension} {r : Registry}
  (hload : Registry.load config extensions = .ok r)
include hload

theorem compiled_of_load {e : Entry} (he : e ∈ r.entries) {t : Template}
    (ht : e.template = some t) :
    Compiled e t := by
  obtain ⟨text, htext⟩ := (Registry.loaded_of_load hload).compiled he ht
  obtain ⟨hreads, hused, hoperator⟩ := Template.compiled_ofText htext
  exact ⟨hreads, hused, hoperator⟩

/-- Every candidate at a canonical form is one of a loaded definition, and has a footprint. -/
theorem footprint_of_mem {settings : MatchSettings} {c : Canon} (hc : c.IsForm) {cand : Candidate}
    (h : cand ∈ (Matcher.new r settings).candidates c) :
    cand.instruction.entry ∈ r.entries ∧ ∃ slots, Footprint c cand slots := by
  have hr := Registry.loaded_of_load hload
  rcases (mem_candidates_of_loaded hr).mp h with
    ⟨e, he, hattempt⟩ | ⟨-, shift, hshift, base, variant, hpair, hattempt⟩
  · refine ⟨?_, footprint_of_attempt (fun t => compiled_of_load hload he) hc hattempt⟩
    rw [entry_of_attempt hattempt]
    exact he
  · obtain ⟨hbase, hvariant, hname⟩ := hr.mem_roundingPairs_iff.mp hpair
    obtain ⟨-, -, hoperands⟩ := Registry.rounds_of_load hload hbase hvariant hname
    refine ⟨?_, footprint_of_rounding (fun t => compiled_of_load hload hbase) hoperands hc hshift
      hattempt⟩
    obtain ⟨plain, -, rfl⟩ := Option.map_eq_some_iff.mp hattempt
    exact hvariant

theorem wellFormed_of_mem {settings : MatchSettings} {p : Expr Nat} {cand : Candidate}
    (h : cand ∈ (Matcher.new r settings).matchAt p) : cand.WellFormed p := by
  obtain ⟨hentry, slots, hfoot⟩ := footprint_of_mem hload ⟨p, rfl⟩ h
  exact hfoot.wellFormed ((Registry.loaded_of_load hload).valid hentry)

end Loaded

variable {m : Matcher}

theorem mem_better {best found : List Candidate} {cand : Candidate}
    (h : cand ∈ better best found) : cand ∈ best ∨ cand ∈ found := by
  unfold better at h
  split at h
  · exact .inr h
  · exact .inl h
  · split at h
    · exact .inl h
    · exact .inr h

/-- A search for the best candidates ends with those of one node. -/
theorem mem_foldl_better {cs : List Canon} {best : List Candidate} {cand : Candidate}
    (h : cand ∈ cs.foldl (fun acc c => better acc (m.candidates c)) best) :
    cand ∈ best ∨ ∃ c ∈ cs, cand ∈ m.candidates c := by
  induction cs generalizing best with
  | nil => exact .inl h
  | cons c cs ih =>
    rcases ih h with hbetter | ⟨d, hd, hcand⟩
    · exact (mem_better hbetter).imp_right fun hcand => ⟨c, List.mem_cons_self, hcand⟩
    · exact .inr ⟨d, List.mem_cons_of_mem _ hd, hcand⟩

theorem mem_concat {covers : List Cover} {cand : Candidate} :
    cand ∈ (Cover.concat covers).found ↔ ∃ cover ∈ covers, cand ∈ cover.found := by
  induction covers with
  | nil => simp [Cover.concat]
  | cons cover covers ih =>
    show cand ∈ cover.found ++ (Cover.concat covers).found ↔ _
    rw [List.mem_append, ih, List.exists_mem_cons_iff]

theorem mem_preorder_of_operandNodes {root d : Canon} {i : BoundInstruction}
    (h : d ∈ operandNodes root i) : d ∈ root.preorder := by
  obtain ⟨b, -, hfind⟩ := List.mem_filterMap.mp h
  cases b with
  | value node => exact List.mem_of_find?_eq_some hfind
  | imm v => cases hfind

/-- Every match of a cover is a candidate at a node of the form. -/
theorem mem_coverFrom {root c : Canon} (hc : c ∈ root.preorder) {steps : Nat} {cand : Candidate}
    (h : cand ∈ (m.coverFrom root steps c).found) :
    ∃ d ∈ root.preorder, cand ∈ m.candidates d := by
  induction steps generalizing c with
  | zero => cases h
  | succ steps ih =>
    -- the search goes on at nodes of the form only
    have hnodes : ∀ ds : List Canon, (∀ d ∈ ds, d ∈ root.preorder) →
        cand ∈ (Cover.concat (ds.map (m.coverFrom root steps))).found →
        ∃ d ∈ root.preorder, cand ∈ m.candidates d := by
      intro ds hds hmem
      obtain ⟨cover, hcover, hcand⟩ := mem_concat.mp hmem
      obtain ⟨d, hd, rfl⟩ := List.mem_map.mp hcover
      exact ih (hds d hd) hcand
    have hchildren : ∀ d ∈ c.children, d ∈ root.preorder := fun d hd =>
      Canon.mem_preorder_trans hc (Canon.mem_preorder_of_child hd (Canon.mem_preorder_self d))
    rw [coverFrom] at h
    split at h
    · exact hnodes _ hchildren h
    · rename_i top rest hfound
      split at h
      · exact hnodes _ hchildren h
      · rcases List.mem_cons.mp h with rfl | h
        · exact ⟨c, hc, hfound ▸ List.mem_cons_self⟩
        · exact hnodes _ (fun d => mem_preorder_of_operandNodes) h

/-- The matcher returns a candidate for a tree: at a node, as the best one, or in the cover. -/
inductive Returns (m : Matcher) (t : ExprTree) (cand : Candidate) : Prop where
  | matched (n : Expr Nat) (hn : n ∈ t.nodes) (h : cand ∈ m.matchAt n)
  | selected (h : m.select t = .ok (some cand))
  | covered (h : cand ∈ (m.cover t).found)

/-- **Whatever a matcher returns is a candidate at a node of the tree.** -/
theorem matched_of_returns {t : ExprTree} (ht : t.Indexed) {cand : Candidate}
    (h : m.Returns t cand) :
    ∃ n ∈ t.nodes, cand ∈ m.matchAt n := by
  have hnode : ∀ c ∈ (Canon.ofExpr t.root).preorder, cand ∈ m.candidates c →
      ∃ n ∈ t.nodes, cand ∈ m.matchAt n := by
    intro c hc hcand
    obtain ⟨s, hs, rfl⟩ := Canon.form_of_mem_preorder hc
    exact ⟨s, ht.mem_of_mem_preorder ht.root_mem hs, hcand⟩
  cases h with
  | matched n hn h => exact ⟨n, hn, h⟩
  | selected h =>
    unfold select at h
    simp only at h
    split at h
    · cases h
    · rename_i top rest hbest
      split at h
      · cases h
      · obtain rfl := Option.some.inj (Except.ok.inj h)
        have hmem := mem_foldl_better (m := m) (hbest ▸ List.mem_cons_self)
        obtain ⟨c, hc, hcand⟩ := hmem.resolve_left List.not_mem_nil
        exact hnode c hc hcand
  | covered h =>
    obtain ⟨c, hc, hcand⟩ := mem_coverFrom (Canon.mem_preorder_self _) h
    exact hnode c hc hcand

/-- **Every candidate that a matcher returns is well formed.** With any settings and for any tree,
whatever comes from matching at a node, selecting or covering, rounding forms included, is a well
formed candidate at the node of its number. If every immediate of the definition is an input, then
lowering it with an assigner that never fails gives each operand one value, which for an immediate
is the constant that it is bound to. -/
theorem wellFormed_of_returns {config : RegistrySettings} {extensions : List Extension}
    {r : Registry} (hload : Registry.load config extensions = .ok r) {settings : MatchSettings}
    {t : ExprTree} (ht : t.Assembled) {cand : Candidate}
    (h : (Matcher.new r settings).Returns t cand) :
    (∃ p, t.node? cand.root = some p ∧ cand.WellFormed p) ∧
    ((∀ op ∈ cand.instruction.entry.definition.operands, op.kind = .immediate →
        op.isInput = true) →
      ∀ a : Assigner, a.NeverFails → ∃ bindings, cand.instruction.lower a = .ok bindings ∧
        bindings.names.Perm (cand.instruction.entry.definition.operands.map Operand.name) ∧
        ∀ op ∈ cand.instruction.entry.definition.operands, ∀ v, op.kind = .immediate →
          bindings.get? op.name = some v → cand.binding? op.name = some (.imm v)) := by
  obtain ⟨n, hn, hcand⟩ := matched_of_returns ht.indexed h
  have hwell := wellFormed_of_mem hload hcand
  obtain ⟨hentry, -⟩ := footprint_of_mem hload ⟨n, rfl⟩ hcand
  have hnodup := ((Registry.loaded_of_load hload).valid hentry).distinct
  refine ⟨⟨n, ?_, hwell⟩, fun hinputs a ha => ?_⟩
  · rw [hwell.root]
    exact ht.indexed.node_of_mem hn
  · have himm : ∀ op ∈ cand.instruction.entry.definition.operands, op.kind = .immediate →
        ∃ v, cand.instruction.operands.get? op.name = some (.imm v) := by
      intro op hop hkind
      obtain ⟨v, hv, -⟩ := hwell.immediate op
        (List.mem_filter.mpr ⟨hop, hinputs op hop hkind⟩) hkind
      exact ⟨v, hv⟩
    obtain ⟨out, hout, hlowers⟩ :=
      BoundInstruction.lowerFrom_eq_ok cand.instruction ha hnodup himm a.start {}
    refine ⟨out, hout, hlowers.names hnodup, fun op hop v hkind hv => ?_⟩
    obtain ⟨w, hw, himmediate⟩ := hlowers.bound op hop
    obtain rfl := Option.some.inj (hw.symm.trans hv)
    exact himmediate hkind

/-- The rounding form of an accumulation covers a sum of a product with four added, shifted by
three, and is lowered with registers one after another. -/
theorem wellFormed_of_returns_rounding :
    ∃ r t cand p bindings, Registry.load {} [Bundled.xcorev] = .ok r ∧
      ExprTree.ofText (.ofList [("a", .u8), ("b", .u8), ("c", .u16)]) "(c + a * b + 4) >> 3" =
        .ok t ∧
      cand ∈ ((Matcher.new r {}).cover t).found ∧ cand.name = "cv.macurn" ∧
      t.node? cand.root = some p ∧ cand.WellFormed p ∧
      cand.instruction.lower (.sequential 10) = .ok bindings ∧
      bindings.names.Perm (cand.instruction.entry.definition.operands.map Operand.name) := by
  have hrun : (Registry.load {} [Bundled.xcorev]).toOption.any (fun r =>
      (ExprTree.ofText (.ofList [("a", .u8), ("b", .u8), ("c", .u16)])
        "(c + a * b + 4) >> 3").toOption.any fun t =>
          ((Matcher.new r {}).cover t).found.any fun cand => cand.name = "cv.macurn" &&
            cand.instruction.entry.definition.operands.all fun op =>
              op.kind = .register || op.isInput) = true := by
    decide +kernel
  obtain ⟨r, hload, hany⟩ := Option.any_eq_true _ _ |>.mp hrun
  obtain ⟨t, htext, hany⟩ := Option.any_eq_true _ _ |>.mp hany
  obtain ⟨cand, hcand, hcase⟩ := List.any_eq_true.mp hany
  obtain ⟨hname, hinputs⟩ := Bool.and_eq_true_iff.mp hcase
  have hload := eq_ok_of_toOption hload
  have htext := eq_ok_of_toOption htext
  obtain ⟨⟨p, hp, hwell⟩, hlower⟩ := wellFormed_of_returns hload (.read _ _ htext) (.covered hcand)
  have himm : ∀ op ∈ cand.instruction.entry.definition.operands, op.kind = .immediate →
      op.isInput = true := by
    intro op hop hkind
    simpa [hkind] using List.all_eq_true.mp hinputs op hop
  obtain ⟨bindings, hbindings, hnames, -⟩ :=
    hlower himm (.sequential 10) fun _ _ _ => ⟨_, rfl⟩
  exact ⟨r, t, cand, p, bindings, hload, htext, hcand, of_decide_eq_true hname, hp, hwell,
    hbindings, hnames⟩

end Matcher
end CustomIsa
