import CustomIsa.Proofs.Canon.Folding
import CustomIsa.Proofs.Match.Emission
/-! # Calls and matches

A candidate binds its inputs by their kinds: a register to a node and an immediate to a constant. A
call binds an argument by what it folds to, whatever the kind of the input. So a call whose
arguments stand for what a candidate has bound (`Candidate.Passes`) is always accepted and names the
same definition, but a register that is bound to a constant node becomes an immediate. The call
gives the instruction of the candidate exactly if there is no such register
(`Registry.bindCallNodes_of_match`), and there may be one
(`Registry.bindCallNodes_folds_register`). A constant argument is bound to its value
(`Registry.bindCallNodes_constant`). -/
namespace CustomIsa

/-- The constant of 64 bits that a source node folds to, if it does. -/
def Expr.folded? (e : Expr Nat) : Option Int := (Canon.ofExpr e).constant?.filter Bits.inInt64

/-- The inputs of the definition that a candidate is of. -/
abbrev Candidate.inputs (cand : Candidate) : List Operand :=
  cand.instruction.entry.definition.inputs

/-- Whether an argument stands for what a candidate has bound an input to: it is the node, or it
folds to the constant. -/
def Candidate.standsFor (cand : Candidate) (op : Operand) (arg : Expr Nat) : Bool :=
  match cand.binding? op.name with
  | some (.value n) => arg.tag = n
  | some (.imm v) => (Canon.ofExpr arg).constant? = some v
  | none => false

/-- The arguments of a call stand for the bindings of a candidate, in the order of the inputs. -/
def Candidate.Passes (cand : Candidate) (args : List (Expr Nat)) : Prop :=
  List.Forall₂ (cand.standsFor · · = true) cand.inputs args

instance (cand : Candidate) (args : List (Expr Nat)) : Decidable (cand.Passes args) :=
  decidable_of_iff (cand.inputs.length = args.length ∧
      ∀ p ∈ cand.inputs.zip args, cand.standsFor p.1 p.2 = true)
    ⟨fun h => List.forall₂_iff_zip.mpr ⟨h.1, fun hp => h.2 _ hp⟩,
      fun h => ⟨h.length_eq, fun _ hp => (List.forall₂_iff_zip.mp h).2 hp⟩⟩

namespace Registry

theorem argumentOf_eq (e : Expr Nat) : argumentOf e = e.folded?.elim (.value e.tag) .imm := by
  unfold argumentOf Expr.folded?
  split
  · rename_i v hv
    rw [hv]
    rfl
  · rename_i hnone
    rw [hnone]
    rfl

theorem argumentOf_constant {e : Expr Nat} {v : Int} (h : (Canon.ofExpr e).constant? = some v)
    (hfits : Bits.inInt64 v = true) : argumentOf e = .imm v := by
  rw [argumentOf_eq, Expr.folded?, h, Option.filter_some, if_pos hfits]
  rfl

/-- The inputs with the arguments they are bound to, in declared order. -/
def bindingsOf (inputs : List Operand) (args : List (Expr Nat)) : List (String × Bound) :=
  (inputs.zip args).map fun p => (p.1.name, argumentOf p.2)

theorem map_fst_bindingsOf {inputs : List Operand} {args : List (Expr Nat)}
    (h : inputs.length = args.length) :
    (bindingsOf inputs args).map Prod.fst = inputs.map Operand.name :=
  Definition.names_of_zip argumentOf h

/-- An input is bound to the argument at its place. -/
theorem get?_bindingsOf {d : Definition} (hvalid : d.Valid) {args : List (Expr Nat)}
    (hcount : d.inputs.length = args.length) {p : Operand × Expr Nat}
    (hp : p ∈ d.inputs.zip args) :
    (NameMap.ofList (bindingsOf d.inputs args)).get? p.1.name = some (argumentOf p.2) := by
  have hmem : (p.1.name, argumentOf p.2) ∈ bindingsOf d.inputs args := List.mem_map.mpr ⟨p, hp, rfl⟩
  refine NameMap.get?_ofList ?_ hmem
  rw [map_fst_bindingsOf hcount]
  exact hvalid.distinct_inputs

theorem bindArguments_zip_eq_ok_iff {inputs : List Operand} {args : List (Expr Nat)}
    {operands : NameMap Bound} :
    bindArguments 1 {} (inputs.zip (args.map argumentOf)) = .ok operands ↔
      (∀ p ∈ inputs.zip args, p.1.kind = .immediate →
        ∃ v, argumentOf p.2 = .imm v ∧ p.1.inRange v = true) ∧
        .ofList (bindingsOf inputs args) = operands := by
  rw [List.zip_map_right, bindArguments_eq_ok_iff, List.map_map, List.forall_mem_map]
  rfl

/-- **When a call is accepted, and what it gives**: the name is an alias, there are as many
arguments as inputs, and those of immediates fold to constants in range. -/
theorem bindCallNodes_eq_ok_iff {r : Registry} {name : String} {args : List (Expr Nat)}
    {i : BoundInstruction} :
    r.bindCallNodes name args = .ok i ↔
      r.byAlias? name = some i.entry ∧ i.entry.definition.inputs.length = args.length ∧
        (∀ p ∈ i.entry.definition.inputs.zip args, p.1.kind = .immediate →
          ∃ v, argumentOf p.2 = .imm v ∧ p.1.inRange v = true) ∧
        .ofList (bindingsOf i.entry.definition.inputs args) = i.operands := by
  rw [bindCallNodes, bindCall_eq_ok_iff, Definition.Accepts, Definition.called, List.length_map,
    List.zip_map_right, List.forall_mem_map, List.map_map, and_assoc]
  rfl

end Registry

/-- What a call makes of the instruction of a candidate: the same definition with the same inputs
bound, each to the constant that its argument folds to, or as in the candidate. -/
structure Candidate.CalledWith (cand : Candidate) (args : List (Expr Nat)) (i : BoundInstruction) :
    Prop where
  entry : i.entry = cand.instruction.entry
  bound : ∀ p ∈ cand.inputs.zip args,
    i.operands.get? p.1.name = (p.2.folded?.map Bound.imm).or (cand.binding? p.1.name)
  others : ∀ name, name ∉ cand.inputs.map Operand.name →
    i.operands.get? name = none

namespace Candidate

section
variable {e : Expr Nat} {cand : Candidate} (hwell : cand.WellFormed e)
include hwell

section
variable {op : Operand} {arg : Expr Nat} (h : cand.standsFor op arg = true)
  (hop : op ∈ cand.inputs)
include h hop

theorem folded_of_standsFor (hkind : op.kind = .immediate) :
    ∃ v, arg.folded? = some v ∧ cand.binding? op.name = some (.imm v) ∧ op.inRange v = true := by
  obtain ⟨v, hbinding, hrange⟩ := hwell.immediate op hop hkind
  refine ⟨v, ?_, hbinding, hrange⟩
  rw [standsFor, hbinding, decide_eq_true_iff] at h
  rw [Expr.folded?, h, Option.filter_some, if_pos (Operand.inInt64_of_inRange hrange)]

theorem tag_of_standsFor (hkind : op.kind = .register) :
    cand.binding? op.name = some (.value arg.tag) := by
  obtain ⟨s, -, hbinding⟩ := hwell.register op hop hkind
  rw [standsFor, hbinding, decide_eq_true_iff] at h
  rw [hbinding, ← h]

/-- The argument is bound to the constant it folds to, or like the input in the candidate. -/
theorem argumentOf_of_standsFor : some (Registry.argumentOf arg) =
    (arg.folded?.map Bound.imm).or (cand.binding? op.name) := by
  rw [Registry.argumentOf_eq]
  cases hkind : op.kind with
  | immediate =>
    obtain ⟨v, hfolded, -⟩ := folded_of_standsFor hwell h hop hkind
    rw [hfolded]
    rfl
  | register =>
    rw [tag_of_standsFor hwell h hop hkind]
    cases arg.folded? <;> rfl

end

variable {args : List (Expr Nat)} (hargs : cand.Passes args)
include hargs

/-- Arguments that stand for the bindings of a candidate are accepted. -/
theorem bindArguments_standing (hvalid : cand.instruction.entry.definition.Valid) :
    ∃ operands, Registry.bindArguments 1 {} (cand.inputs.zip (args.map Registry.argumentOf)) =
      .ok operands ∧ cand.CalledWith args ⟨cand.instruction.entry, operands⟩ := by
  obtain ⟨-, hstands⟩ := List.forall₂_iff_zip.mp hargs
  refine ⟨_, Registry.bindArguments_zip_eq_ok_iff.mpr ⟨fun p hp hkind => ?_, rfl⟩, rfl,
    fun p hp => ?_, fun name hname => ?_⟩
  · obtain ⟨v, hfolded, -, hrange⟩ :=
      folded_of_standsFor hwell (hstands hp) (List.of_mem_zip hp).1 hkind
    refine ⟨v, ?_, hrange⟩
    rw [Registry.argumentOf_eq, hfolded]
    rfl
  · rw [← argumentOf_of_standsFor hwell (hstands hp) (List.of_mem_zip hp).1]
    exact Registry.get?_bindingsOf hvalid hargs.length_eq hp
  · refine NameMap.get?_foldl_insert_of_not_mem ?_ _
    rw [Registry.map_fst_bindingsOf hargs.length_eq]
    exact hname

/-- The call gives the instruction of the candidate unless a register argument folds. -/
theorem CalledWith.eq_iff {i : BoundInstruction} (h : cand.CalledWith args i) :
    i = cand.instruction ↔
      ∀ p ∈ cand.inputs.zip args, p.1.kind = .register → p.2.folded? = none := by
  obtain ⟨-, hstands⟩ := List.forall₂_iff_zip.mp hargs
  constructor
  · rintro rfl p hp hkind
    have hbound := h.bound p hp
    rw [← binding?, tag_of_standsFor hwell (hstands hp) (List.of_mem_zip hp).1 hkind] at hbound
    cases hfolded : p.2.folded? with
    | none => rfl
    | some v =>
      rw [hfolded] at hbound
      cases hbound
  · intro hunfolded
    obtain ⟨entry, operands⟩ := i
    obtain rfl : entry = cand.instruction.entry := h.entry
    suffices heq : operands = cand.instruction.operands by rw [heq]
    refine NameMap.ext_get? fun name => ?_
    by_cases hname : name ∈ cand.inputs.map Operand.name
    · -- every input has an argument
      rw [← List.map_fst_zip hargs.length_eq.le, List.map_map] at hname
      obtain ⟨p, hp, rfl⟩ := List.mem_map.mp hname
      refine (h.bound p hp).trans ?_
      cases hkind : p.1.kind with
      | register =>
        rw [hunfolded p hp hkind]
        rfl
      | immediate =>
        obtain ⟨v, hfolded, hbinding, -⟩ :=
          folded_of_standsFor hwell (hstands hp) (List.of_mem_zip hp).1 hkind
        rw [hfolded]
        exact hbinding.symm
    · refine (h.others name hname).trans (Eq.symm ?_)
      refine Option.not_isSome_iff_eq_none.mp fun hsome => hname ?_
      obtain ⟨op, hop, rfl⟩ := (hwell.bound name).mp hsome
      exact List.mem_map_of_mem hop

end
end Candidate

namespace Registry

/-- **A call binds like a match, but for constants in registers.** In a loaded registry, with any
settings and for a candidate at any node whose definition has an alias, let the arguments stand for
what the candidate has bound, in the order of the inputs. The call of that alias is accepted and
gives the same definition with the same inputs bound. Each is bound as in the candidate, except that
a register whose node folds to a constant is bound to the constant. So the result is the instruction
of the candidate exactly if no register is bound to such a node. -/
theorem bindCallNodes_of_match {config : RegistrySettings} {extensions : List Extension}
    {r : Registry} (hload : load config extensions = .ok r) {settings : MatchSettings}
    {e : Expr Nat} {cand : Candidate} (hcand : cand ∈ (Matcher.new r settings).matchAt e)
    {name : String} (halias : cand.instruction.entry.alias = some name) {args : List (Expr Nat)}
    (hargs : cand.Passes args) :
    ∃ i, r.bindCallNodes name args = .ok i ∧ cand.CalledWith args i ∧
      (i = cand.instruction ↔
        ∀ p ∈ cand.inputs.zip args, p.1.kind = .register → p.2.folded? = none) := by
  obtain ⟨hentry, -⟩ := Matcher.footprint_of_mem hload ⟨e, rfl⟩ hcand
  have hwell := Matcher.wellFormed_of_mem hload hcand
  have hfound : r.byAlias? name = some cand.instruction.entry :=
    (loaded_of_load hload).byAlias?_eq_some_iff.mpr ⟨hentry, halias⟩
  obtain ⟨operands, hbind, hcalled⟩ :=
    Candidate.bindArguments_standing hwell hargs ((loaded_of_load hload).valid hentry)
  refine ⟨_, ?_, hcalled, hcalled.eq_iff hwell hargs⟩
  have hcount : ¬cand.inputs.length ≠ (args.map argumentOf).length := by
    rw [List.length_map, hargs.length_eq]
    exact not_not.mpr rfl
  rw [bindCallNodes, bindCall, intrinsic, hfound]
  simp only [if_neg hcount, hbind]

/-- A call of the multiplication that accumulates and shifts, with the nodes it was matched with: no
register is bound to a constant, and the call gives the matched instruction. -/
theorem bindCallNodes_of_match_accumulate :
    ∃ r t cand args, load {} [Bundled.xcorev] = .ok r ∧
      ExprTree.ofText (.ofList [("acc", .u32), ("x", .u16), ("y", .u16)])
        "((uint64_t)acc + x * y) >> (3 + 4)" = .ok t ∧
      cand ∈ (Matcher.new r {}).matchAt t.root ∧
      cand.instruction.entry.alias = some "__builtin_riscv_cv_macun" ∧
      args.map Expr.tag = [1, 2, 3, 8] ∧ cand.Passes args ∧
      r.bindCallNodes "__builtin_riscv_cv_macun" args = .ok cand.instruction := by
  have hrun : (load {} [Bundled.xcorev]).toOption.any (fun r =>
      (ExprTree.ofText (.ofList [("acc", .u32), ("x", .u16), ("y", .u16)])
        "((uint64_t)acc + x * y) >> (3 + 4)").toOption.any fun t =>
          ((Matcher.new r {}).matchAt t.root).any fun cand =>
            let args := [1, 2, 3, 8].filterMap t.node?
            cand.instruction.entry.alias = some "__builtin_riscv_cv_macun" &&
              args.map Expr.tag = [1, 2, 3, 8] && cand.Passes args &&
              (cand.inputs.zip args).all fun p =>
                p.1.kind != .register || p.2.folded?.isNone) = true := by
    decide +kernel
  obtain ⟨r, hload, hrun⟩ := Option.any_eq_true _ _ |>.mp hrun
  obtain ⟨t, htext, hrun⟩ := Option.any_eq_true _ _ |>.mp hrun
  obtain ⟨cand, hcand, hrun⟩ := List.any_eq_true.mp hrun
  simp only [Bool.and_eq_true, decide_eq_true_eq, List.all_eq_true] at hrun
  obtain ⟨⟨⟨halias, htags⟩, hpasses⟩, hunfolded⟩ := hrun
  have hload := eq_ok_of_toOption hload
  obtain ⟨i, hcall, -, heq⟩ := bindCallNodes_of_match hload hcand halias hpasses
  obtain rfl := heq.mpr fun p hp hkind => by simpa [hkind] using hunfolded p hp
  exact ⟨r, t, cand, _, hload, eq_ok_of_toOption htext, hcand, halias, htags, hpasses, hcall⟩

/-- **A call may bind otherwise than the match.** The negated conjunction of a variable and five is
matched with a register for each, but a call with the same two nodes binds the second register to
the constant five. -/
theorem bindCallNodes_folds_register :
    ∃ r t cand args i, load {} [Bundled.xrv] = .ok r ∧
      ExprTree.ofText (.ofList [("x", .i32)]) "~(x & 5)" = .ok t ∧
      cand ∈ (Matcher.new r {}).matchAt t.root ∧
      cand.instruction.entry.alias = some "__builtin_riscv_xrv_nand" ∧
      args.map Expr.tag = [0, 1] ∧ cand.Passes args ∧
      cand.binding? "rs2" = some (.value 1) ∧
      r.bindCallNodes "__builtin_riscv_xrv_nand" args = .ok i ∧
      i.operands.get? "rs2" = some (.imm 5) ∧ i ≠ cand.instruction := by
  have hrun : (load {} [Bundled.xrv]).toOption.any (fun r =>
      (ExprTree.ofText (.ofList [("x", .i32)]) "~(x & 5)").toOption.any fun t =>
        ((Matcher.new r {}).matchAt t.root).any fun cand =>
          let args := [0, 1].filterMap t.node?
          cand.instruction.entry.alias = some "__builtin_riscv_xrv_nand" &&
            args.map Expr.tag = [0, 1] && cand.Passes args &&
            cand.binding? "rs2" = some (.value 1) &&
            (r.bindCallNodes "__builtin_riscv_xrv_nand" args).toOption.any fun i =>
              i.operands.get? "rs2" = some (.imm 5)) = true := by
    decide +kernel
  obtain ⟨r, hload, hrun⟩ := Option.any_eq_true _ _ |>.mp hrun
  obtain ⟨t, htext, hrun⟩ := Option.any_eq_true _ _ |>.mp hrun
  obtain ⟨cand, hcand, hrun⟩ := List.any_eq_true.mp hrun
  simp only [Bool.and_eq_true, decide_eq_true_eq] at hrun
  obtain ⟨⟨⟨⟨halias, htags⟩, hpasses⟩, hvalue⟩, hcall⟩ := hrun
  obtain ⟨i, hi, himm⟩ := Option.any_eq_true _ _ |>.mp hcall
  rw [decide_eq_true_iff] at himm
  refine ⟨r, t, cand, _, i, eq_ok_of_toOption hload, eq_ok_of_toOption htext, hcand, halias, htags,
    hpasses, hvalue, eq_ok_of_toOption hi, himm, ?_⟩
  rintro rfl
  cases himm.symm.trans hvalue

/-! ## Constant arguments -/

/-- **A constant argument is bound to its value.** In a tree read from text, the canonical form of
every constant node, such as the root, is its value: each operation computed on the integers and
reduced into the type of the node. In a loaded registry, an accepted call with nodes of the tree
binds each constant argument whose value has 64 bits to that value, for a register as well as for an
immediate. The call is accepted if its name is the alias of a definition with as many inputs as
there are arguments, and the arguments of immediates are constant and in range. -/
theorem bindCallNodes_constant {vars : Typing} {text : String} {t : ExprTree}
    (htext : ExprTree.ofText vars text = .ok t) (env : Env) :
    t.root ∈ t.nodes ∧
    (∀ p ∈ t.nodes, p.IsConstant env → (Canon.ofExpr p).constant? = some (p.value env)) ∧
    ∀ {config : RegistrySettings} {extensions : List Extension} {r : Registry},
      load config extensions = .ok r → ∀ {name : String} {args : List (Expr Nat)},
      (∀ p ∈ args, p ∈ t.nodes) →
        (∀ i, r.bindCallNodes name args = .ok i → ∀ p ∈ i.entry.definition.inputs.zip args,
          p.2.IsConstant env → Bits.inInt64 (p.2.value env) = true →
            i.operands.get? p.1.name = some (.imm (p.2.value env))) ∧
        ∀ e ∈ r.entries, e.alias = some name →
          List.Forall₂ (fun op arg => op.kind = .immediate →
            arg.IsConstant env ∧ op.inRange (arg.value env) = true) e.definition.inputs args →
          ∃ i, r.bindCallNodes name args = .ok i ∧ i.entry = e := by
  have hconstant : ∀ p ∈ t.nodes, p.IsConstant env →
      (Canon.ofExpr p).constant? = some (p.value env) :=
    fun p hp h => ExprTree.constant_ofText htext hp h
  refine ⟨(ExprTree.Assembled.read vars text htext).indexed.root_mem, hconstant,
    fun {config extensions r} hload {name args} hargs => ⟨?_, ?_⟩⟩
  · intro i hcall p hp hp' hfits
    obtain ⟨hfound, hcount, -, hoperands⟩ := bindCallNodes_eq_ok_iff.mp hcall
    have hr := loaded_of_load hload
    have hentry := (hr.byAlias?_eq_some_iff.mp hfound).1
    rw [← hoperands, get?_bindingsOf (hr.valid hentry) hcount hp,
      argumentOf_constant (hconstant p.2 (hargs p.2 (List.of_mem_zip hp).2) hp') hfits]
  · intro e he halias hinputs
    obtain ⟨hcount, hpairs⟩ := List.forall₂_iff_zip.mp hinputs
    have hfound : r.byAlias? name = some e :=
      (loaded_of_load hload).byAlias?_eq_some_iff.mpr ⟨he, halias⟩
    refine ⟨⟨e, .ofList (bindingsOf e.definition.inputs args)⟩,
      bindCallNodes_eq_ok_iff.mpr ⟨hfound, hcount, fun p hp hkind => ?_, rfl⟩, rfl⟩
    obtain ⟨harg, hrange⟩ := hpairs hp hkind
    refine ⟨_, argumentOf_constant (hconstant p.2 (hargs p.2 (List.of_mem_zip hp).2) harg)
      (Operand.inInt64_of_inRange hrange), hrange⟩

/-- Three constants of one tree, two of them in registers: a complement without sign, the difference
of a cast that loses bits, and a sum that wraps around. -/
theorem bindCallNodes_constant_wrapping :
    ∃ r t args i, load {} [Bundled.xcorev] = .ok r ∧
      ExprTree.ofText {} "(~0u >> 4) * ((short)40000 - 1) + ((4294967295u + 2) * 7 - (3 < 4))" =
        .ok t ∧
      (Canon.ofExpr t.root).constant? = some 4026557383 ∧
      r.bindCallNodes "__builtin_riscv_cv_addun" args = .ok i ∧
      (i.entry.definition.inputs.zip args).map (fun p => (p.1.name, p.2.value fun _ => 0)) =
        [("rs1", 268435455), ("rs2", -25537), ("is3", 6)] ∧
      ∀ p ∈ i.entry.definition.inputs.zip args,
        i.operands.get? p.1.name = some (.imm (p.2.value fun _ => 0)) := by
  have hrun : (load {} [Bundled.xcorev]).toOption.any (fun r => (ExprTree.ofText {}
      "(~0u >> 4) * ((short)40000 - 1) + ((4294967295u + 2) * 7 - (3 < 4))").toOption.any fun t =>
        r.entries.any fun e =>
          let inputs := e.definition.inputs
          let args := [3, 7, 17].filterMap t.node?
          e.alias = some "__builtin_riscv_cv_addun" && (t.root.IsConstant fun _ => 0) &&
            t.root.value (fun _ => 0) = 4026557383 &&
            args.all (fun p => t.nodes.contains p && (p.IsConstant fun _ => 0) &&
              Bits.inInt64 (p.value fun _ => 0)) &&
            inputs.length = args.length &&
            (inputs.zip args).all (fun p =>
              p.1.kind != .immediate || p.1.inRange (p.2.value fun _ => 0)) &&
            (inputs.zip args).map (fun p => (p.1.name, p.2.value fun _ => 0)) =
              [("rs1", 268435455), ("rs2", -25537), ("is3", 6)]) = true := by
    decide +kernel
  obtain ⟨r, hload, hrun⟩ := Option.any_eq_true _ _ |>.mp hrun
  obtain ⟨t, htext, hrun⟩ := Option.any_eq_true _ _ |>.mp hrun
  obtain ⟨e, he, hrun⟩ := List.any_eq_true.mp hrun
  simp only [Bool.and_eq_true, decide_eq_true_eq, List.all_eq_true, List.contains_iff_mem] at hrun
  obtain ⟨⟨⟨⟨⟨⟨halias, hconstant⟩, hvalue⟩, hargs⟩, hcount⟩, hrange⟩, hbound⟩ := hrun
  have hload := eq_ok_of_toOption hload
  have htext := eq_ok_of_toOption htext
  obtain ⟨hroot, hfold, hcalls⟩ := bindCallNodes_constant htext fun _ => 0
  obtain ⟨hbinds, haccepts⟩ := hcalls hload fun p hp => (hargs p hp).1.1
  obtain ⟨i, hcall, rfl⟩ := haccepts e he halias <| List.forall₂_iff_zip.mpr
    ⟨hcount, fun {op arg} hp hkind =>
      ⟨(hargs arg (List.of_mem_zip hp).2).1.2, by simpa [hkind] using hrange (op, arg) hp⟩⟩
  refine ⟨r, t, _, i, hload, htext, ?_, hcall, hbound, fun p hp => ?_⟩
  · rw [hfold t.root hroot hconstant, hvalue]
  · obtain ⟨⟨-, harg⟩, hfits⟩ := hargs p.2 (List.of_mem_zip hp).2
    exact hbinds i hcall p hp harg hfits

end Registry
end CustomIsa
