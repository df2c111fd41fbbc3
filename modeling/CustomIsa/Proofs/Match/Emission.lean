import CustomIsa.Intrinsic
import CustomIsa.Proofs.Match.WellFormed
import CustomIsa.Proofs.Registry.Indexes
import CustomIsa.Proofs.Registry.RoundTrip
/-! # From a call to the word that is decoded

A call is refused if its name is no alias, or if an argument is missing, is one too many, or does
not fit its input (`Operand.Refuses`). Otherwise each input is bound to the argument at its position
(`Definition.get?_called`); an operand that is an output only has no position among the inputs. An
assigner is then asked for the registers in declared order (`Assigner.numbers`), and the word that
is emitted decodes to the constants of the call and the numbers of the assigner
(`Registry.decode_of_emitCall`). -/
namespace CustomIsa

/-! ## Arguments -/

/-- The argument cannot be bound to the operand: the operand is an immediate, and the argument is a
source node or a constant out of range. -/
def Operand.Refuses (op : Operand) (arg : Bound) : Prop :=
  op.kind = .immediate ∧ ((∃ node, arg = .value node) ∨
    ∃ v, arg = .imm v ∧ (v < op.immediateRange.1 ∨ op.immediateRange.2 < v))

theorem Operand.not_refuses_iff {op : Operand} {arg : Bound} :
    ¬op.Refuses arg ↔ (op.kind = .immediate → ∃ v, arg = .imm v ∧ op.inRange v = true) := by
  rw [Refuses, not_and]
  refine forall_congr' fun _ => ?_
  cases arg with
  | value node => simp
  | imm v => simp [inRange]

namespace Definition

/-- The argument of an operand in a call: the one at its position among the inputs. -/
def argument? (d : Definition) (args : List Bound) (op : Operand) : Option Bound :=
  (d.inputs.idxOf? op).bind (args[·]?)

/-- The inputs bound to the arguments of a call. -/
def called (d : Definition) (args : List Bound) : NameMap Bound :=
  .ofList ((d.inputs.zip args).map fun p => (p.1.name, p.2))

/-- What an assigner is asked for a call: the register operands in declared order, each with its
argument, which an output does not have. -/
def requests (d : Definition) (args : List Bound) : List (Operand × Option Bound) :=
  (d.operands.filter Operand.isRegister).map fun op => (op, d.argument? args op)

/-- There are as many arguments as inputs, and those of immediates are constants in range. -/
def Accepts (d : Definition) (args : List Bound) : Prop :=
  d.inputs.length = args.length ∧
    ∀ p ∈ d.inputs.zip args, p.1.kind = .immediate → ∃ v, p.2 = .imm v ∧ p.1.inRange v = true

theorem not_accepts_iff {d : Definition} {args : List Bound} :
    ¬d.Accepts args ↔
      d.inputs.length ≠ args.length ∨ ∃ p ∈ d.inputs.zip args, p.1.Refuses p.2 := by
  simp only [Accepts, ← Operand.not_refuses_iff, not_and_or, not_forall, not_not, exists_prop,
    ne_eq]

/-- Whatever the inputs are bound to, their names come in declared order. -/
theorem names_of_zip {α : Type} (f : α → Bound) {inputs : List Operand} {args : List α}
    (hcount : inputs.length = args.length) :
    ((inputs.zip args).map fun p => (p.1.name, f p.2)).map Prod.fst = inputs.map Operand.name := by
  rw [List.map_map]
  show (inputs.zip args).map (Operand.name ∘ Prod.fst) = _
  rw [← List.map_map, List.map_fst_zip hcount.le]

/-- **An operand is bound to the argument at its position**, if it has one. -/
theorem get?_called {d : Definition} (hvalid : d.Valid) {args : List Bound}
    (hcount : d.inputs.length = args.length) {op : Operand} (hop : op ∈ d.operands) :
    (d.called args).get? op.name = d.argument? args op := by
  have hnames : ((d.inputs.zip args).map fun p => (p.1.name, p.2)).map Prod.fst =
      d.inputs.map Operand.name := names_of_zip id hcount
  rw [argument?]
  cases hposition : d.inputs.idxOf? op with
  | some k =>
    obtain ⟨hk, heq, -⟩ := List.idxOf?_eq_some_iff.mp hposition
    have harg : args[k]? = some args[k] := List.getElem?_eq_getElem (hcount ▸ hk)
    have hpair : (op, args[k]) ∈ d.inputs.zip args :=
      List.mem_of_getElem? (List.getElem?_zip_eq_some.mpr
        ⟨heq ▸ List.getElem?_eq_getElem hk, harg⟩)
    rw [Option.bind_some, harg]
    refine NameMap.get?_ofList ?_ (List.mem_map.mpr ⟨_, hpair, rfl⟩)
    rw [hnames]
    exact hvalid.distinct_inputs
  | none =>
    -- no input has the name of the operand, since names are distinct
    refine NameMap.get?_foldl_insert_of_not_mem ?_ _
    rw [hnames]
    intro hname
    obtain ⟨input, hinput, heq⟩ := List.mem_map.mp hname
    obtain rfl := List.inj_on_of_nodup_map hvalid.distinct (List.mem_filter.mp hinput).1 hop heq
    exact List.idxOf?_eq_none_iff.mp hposition hinput

end Definition

namespace Registry

theorem argumentFault_eq_none_iff (position : Nat) {op : Operand} {arg : Bound} :
    argumentFault? position op arg = none ↔
      (op.kind = .immediate → ∃ v, arg = .imm v ∧ op.inRange v = true) := by
  unfold argumentFault?
  cases op.kind with
  | register => simp
  | immediate => cases arg <;> simp

/-- Arguments are bound one after another, exactly if those of immediates are constants in range. -/
theorem bindArguments_eq_ok_iff {pairs : List (Operand × Bound)} {position : Nat}
    {bound operands : NameMap Bound} :
    bindArguments position bound pairs = .ok operands ↔
      (∀ p ∈ pairs, p.1.kind = .immediate → ∃ v, p.2 = .imm v ∧ p.1.inRange v = true) ∧
        (pairs.map fun p => (p.1.name, p.2)).foldl (fun acc e => acc.insert e.1 e.2) bound =
          operands := by
  induction pairs generalizing position bound with
  | nil => simp [bindArguments]
  | cons p pairs ih =>
    obtain ⟨op, arg⟩ := p
    rw [bindArguments, List.forall_mem_cons, List.map_cons, List.foldl_cons,
      ← argumentFault_eq_none_iff position]
    cases argumentFault? position op arg with
    | some fault => simp
    | none => simp [ih]

variable {r : Registry} {name : String} {args : List Bound}

/-- **All that can come of a call.** -/
theorem bindCall_cases (r : Registry) (name : String) (args : List Bound) :
    (r.byAlias? name = none ∧ r.bindCall name args = .error (.unknownIntrinsic name)) ∨
      ∃ e, r.byAlias? name = some e ∧
        ((e.definition.Accepts args ∧ r.bindCall name args = .ok ⟨e, e.definition.called args⟩) ∨
          (¬e.definition.Accepts args ∧
            ∃ fault, r.bindCall name args = .error (.invalidCall name fault))) := by
  rw [bindCall, intrinsic]
  cases r.byAlias? name with
  | none => exact .inl ⟨rfl, rfl⟩
  | some e =>
    refine .inr ⟨e, rfl, ?_⟩
    by_cases hcount : e.definition.inputs.length = args.length
    · simp only [hcount, ne_eq, not_true_eq_false, if_false]
      cases hbind : bindArguments 1 {} (e.definition.inputs.zip args) with
      | error fault =>
        refine .inr ⟨fun haccepts => ?_, fault, rfl⟩
        cases hbind.symm.trans (bindArguments_eq_ok_iff.mpr ⟨haccepts.2, rfl⟩)
      | ok operands =>
        obtain ⟨hargs, rfl⟩ := bindArguments_eq_ok_iff.mp hbind
        exact .inl ⟨⟨hcount, hargs⟩, rfl⟩
    · simp only [ne_eq, hcount, not_false_eq_true, if_true]
      exact .inr ⟨fun haccepts => hcount haccepts.1, _, rfl⟩

theorem bindCall_unknown_iff :
    r.bindCall name args = .error (.unknownIntrinsic name) ↔ r.byAlias? name = none := by
  rcases bindCall_cases r name args with ⟨hname, hcall⟩ | ⟨e, hname, ⟨-, hcall⟩ | ⟨-, fault, hcall⟩⟩
  all_goals simp [hname, hcall]

theorem bindCall_invalid_iff :
    (∃ fault, r.bindCall name args = .error (.invalidCall name fault)) ↔
      ∃ e, r.byAlias? name = some e ∧ ¬e.definition.Accepts args := by
  rcases bindCall_cases r name args with
    ⟨hname, hcall⟩ | ⟨e, hname, ⟨haccepts, hcall⟩ | ⟨hrefuses, fault, hcall⟩⟩
  · simp [hname, hcall]
  · simp [hname, hcall, haccepts]
  · simp [hname, hcall, hrefuses]

theorem bindCall_eq_ok_iff {i : BoundInstruction} :
    r.bindCall name args = .ok i ↔
      r.byAlias? name = some i.entry ∧ i.entry.definition.Accepts args ∧
        i.entry.definition.called args = i.operands := by
  rcases bindCall_cases r name args with
    ⟨hname, hcall⟩ | ⟨e, hname, ⟨haccepts, hcall⟩ | ⟨hrefuses, fault, hcall⟩⟩
  all_goals rw [hname, hcall]
  · simp
  · constructor
    · intro h
      obtain rfl := Except.ok.inj h
      exact ⟨rfl, haccepts, rfl⟩
    · rintro ⟨hentry, -, hoperands⟩
      obtain rfl := Option.some.inj hentry
      rw [hoperands]
  · simp only [reduceCtorEq, false_iff]
    rintro ⟨hentry, haccepts, -⟩
    exact hrefuses (Option.some.inj hentry ▸ haccepts)

end Registry

/-! ## Registers -/

/-- The numbers that an assigner gives to operands, one after another. -/
def Assigner.numbers (a : Assigner) (s : a.State) :
    List (Operand × Option Bound) → Except Failure (List Nat)
  | [] => .ok []
  | (op, bound) :: rest =>
    match a.assign s op bound with
    | .error failure => .error failure
    | .ok (number, s) => (a.numbers s rest).map (number :: ·)

/-- Lowering takes the constants of immediates and the numbers that the assigner gives. -/
theorem BoundInstruction.lowers_of_lowerFrom {i : BoundInstruction} {a : Assigner}
    {ops : List Operand} (hnodup : (ops.map Operand.name).Nodup) {s : a.State}
    {bindings out : Bindings} (h : i.lowerFrom a s bindings ops = .ok out) :
    i.Lowers ops bindings out ∧
      ∃ numbers, a.numbers s ((ops.filter Operand.isRegister).map fun op =>
          (op, i.operands.get? op.name)) = .ok numbers ∧
        (ops.filter Operand.isRegister).map (out.get? ·.name) =
          numbers.map fun n : Nat => some (n : Int) := by
  induction ops generalizing s bindings with
  | nil =>
    obtain rfl := Except.ok.inj h
    exact ⟨⟨by simp, fun _ _ => rfl⟩, [], rfl, rfl⟩
  | cons op ops ih =>
    rw [List.map_cons, List.nodup_cons] at hnodup
    rw [lowerFrom] at h
    split at h
    · rename_i hkind
      split at h
      · cases h
      · rename_i number next hassign
        obtain ⟨hlowers, numbers, hnumbers, hout⟩ := ih hnodup.2 h
        have hregister : op.isRegister = true := by simp [Operand.isRegister, hkind]
        refine ⟨hlowers.cons hnodup.1 (by simp [hkind]), number :: numbers, ?_, ?_⟩
        · rw [List.filter_cons_of_pos hregister, List.map_cons, Assigner.numbers, hassign]
          simp only [hnumbers]
          rfl
        · rw [List.filter_cons_of_pos hregister, List.map_cons, List.map_cons, hout,
            hlowers.others _ hnodup.1, NameMap.get?_insert, if_pos rfl]
    · rename_i v hkind hbound
      obtain ⟨hlowers, hnumbers⟩ := ih hnodup.2 h
      have hregister : ¬op.isRegister = true := by simp [Operand.isRegister, hkind]
      rw [List.filter_cons_of_neg hregister]
      exact ⟨hlowers.cons hnodup.1 fun _ => hbound, hnumbers⟩
    · cases h

/-- The values of the operands are those of a call: an immediate has the constant at its position,
and the registers have the numbers that the assigner gives them in declared order. -/
structure Definition.Carries (d : Definition) (args : List Bound) (a : Assigner)
    (bindings : Bindings) : Prop where
  immediates : ∀ op ∈ d.operands, op.kind = .immediate →
    ∃ v, d.argument? args op = some (.imm v) ∧ bindings.get? op.name = some v
  registers : ∃ numbers, a.numbers a.start (d.requests args) = .ok numbers ∧
    (d.operands.filter Operand.isRegister).map (bindings.get? ·.name) =
      numbers.map fun n : Nat => some (n : Int)

theorem BoundInstruction.carries_of_lower (i : BoundInstruction)
    (hvalid : i.entry.definition.Valid) {args : List Bound}
    (hcount : i.entry.definition.inputs.length = args.length)
    (hoperands : i.entry.definition.called args = i.operands) {a : Assigner} {bindings : Bindings}
    (h : i.lower a = .ok bindings) : i.entry.definition.Carries args a bindings := by
  have hbound : ∀ op ∈ i.entry.definition.operands,
      i.operands.get? op.name = i.entry.definition.argument? args op := fun op hop =>
    hoperands ▸ Definition.get?_called hvalid hcount hop
  obtain ⟨hlowers, numbers, hnumbers, hout⟩ := lowers_of_lowerFrom hvalid.distinct h
  refine ⟨fun op hop hkind => ?_, numbers, ?_, hout⟩
  · obtain ⟨v, hv, himmediate⟩ := hlowers.bound op hop
    exact ⟨v, (hbound op hop).symm.trans (himmediate hkind), hv⟩
  · rw [Definition.requests, ← hnumbers]
    refine congrArg _ (List.map_congr_left fun op hop => ?_)
    rw [hbound op (List.mem_filter.mp hop).1]

/-! ## Words -/

namespace Registry

theorem emitCall_eq_ok {r : Registry} {name : String} {args : List Bound} {a : Assigner} {w : Word}
    (h : r.emitCall name args a = .ok w) :
    ∃ i bindings, r.bindCall name args = .ok i ∧ i.lower a = .ok bindings ∧
      r.encode i.entry bindings = .ok w := by
  rw [emitCall] at h
  split at h
  · cases h
  · rename_i i hcall
    rw [emit] at h
    split at h
    · cases h
    · rename_i bindings hlower
      exact ⟨i, bindings, hcall, hlower, h⟩

/-- **A call reaches the decoder intact.** In a loaded registry a call is refused for its name
exactly if no definition has it as its alias, and for its arguments exactly if their number is not
that of the inputs or one of them does not fit; there is no other refusal. A word that is emitted
for it decodes as the definition of the alias, with the constants of the call in the immediates and
the numbers of the assigner in the registers. -/
theorem decode_of_emitCall {settings : RegistrySettings} {es : List Extension} {r : Registry}
    (hload : load settings es = .ok r) (name : String) (args : List Bound) :
    (r.bindCall name args = .error (.unknownIntrinsic name) ↔
      ∀ e ∈ r.entries, e.alias ≠ some name) ∧
    ((∃ fault, r.bindCall name args = .error (.invalidCall name fault)) ↔
      ∃ e ∈ r.entries, e.alias = some name ∧ (e.definition.inputs.length ≠ args.length ∨
        ∃ p ∈ e.definition.inputs.zip args, p.1.Refuses p.2)) ∧
    (∀ failure, r.bindCall name args = .error failure →
      failure = .unknownIntrinsic name ∨ ∃ fault, failure = .invalidCall name fault) ∧
    ∀ (a : Assigner) (w : Word), r.emitCall name args a = .ok w →
      ∃ e ∈ r.entries, e.alias = some name ∧
        ∃ bindings, r.decode w = .ok ⟨e, bindings⟩ ∧ e.definition.Carries args a bindings := by
  have haliased : ∀ e, r.byAlias? name = some e ↔ e ∈ r.entries ∧ e.alias = some name :=
    fun e => (loaded_of_load hload).byAlias?_eq_some_iff
  refine ⟨?_, ?_, fun failure hfailure => ?_, fun a w hw => ?_⟩
  · rw [bindCall_unknown_iff, Option.eq_none_iff_forall_ne_some]
    simp only [ne_eq, haliased, not_and]
  · rw [bindCall_invalid_iff]
    simp only [haliased, Definition.not_accepts_iff, and_assoc]
  · rcases bindCall_cases r name args with
      ⟨-, hcall⟩ | ⟨e, -, ⟨-, hcall⟩ | ⟨-, fault, hcall⟩⟩
    · exact .inl (Except.error.inj (hfailure.symm.trans hcall))
    · cases hfailure.symm.trans hcall
    · exact .inr ⟨fault, Except.error.inj (hfailure.symm.trans hcall)⟩
  · obtain ⟨i, bindings, hcall, hlower, hencode⟩ := emitCall_eq_ok hw
    obtain ⟨hname, ⟨hcount, -⟩, hoperands⟩ := bindCall_eq_ok_iff.mp hcall
    obtain ⟨hmem, halias⟩ := (haliased i.entry).mp hname
    have hloaded := loaded_of_load hload
    exact ⟨i.entry, hmem, halias, bindings, hloaded.decode_encoded hmem hencode,
      i.carries_of_lower (hloaded.valid hmem) hcount hoperands hlower⟩

/-- The destination of the sum, which is no input, gets the first register, both sources of the one
node get the next, and the shift amount is the last argument. -/
theorem decode_of_emitCall_addun :
    ∃ r w e bindings, load {} [Bundled.xcorev] = .ok r ∧
      r.emitCall "__builtin_riscv_cv_addun" [.value 5, .value 5, .imm 7] (.sequential 10) = .ok w ∧
      r.decode w = .ok ⟨e, bindings⟩ ∧ e.name = "cv.addun" ∧
      bindings.toList = [("is3", 7), ("rd", 10), ("rs1", 11), ("rs2", 11)] ∧
      e.alias = some "__builtin_riscv_cv_addun" ∧
      e.definition.Carries [.value 5, .value 5, .imm 7] (.sequential 10) bindings := by
  have hrun : (load {} [Bundled.xcorev]).toOption.any (fun r =>
      (r.emitCall "__builtin_riscv_cv_addun" [.value 5, .value 5, .imm 7]
        (.sequential 10)).toOption.any fun w => (r.decode w).toOption.any fun d =>
          d.entry.name = "cv.addun" &&
            d.bindings.toList = [("is3", 7), ("rd", 10), ("rs1", 11), ("rs2", 11)]) = true := by
    decide +kernel
  obtain ⟨r, hload, hany⟩ := Option.any_eq_true _ _ |>.mp hrun
  obtain ⟨w, hw, hany⟩ := Option.any_eq_true _ _ |>.mp hany
  obtain ⟨d, hdecode, hcase⟩ := Option.any_eq_true _ _ |>.mp hany
  rw [Bool.and_eq_true, decide_eq_true_iff, decide_eq_true_iff] at hcase
  have hload := eq_ok_of_toOption hload
  have hw := eq_ok_of_toOption hw
  obtain ⟨e, -, halias, bindings, hdecode', hcarries⟩ :=
    (decode_of_emitCall hload _ _).2.2.2 _ w hw
  obtain rfl := Except.ok.inj ((eq_ok_of_toOption hdecode).symm.trans hdecode')
  exact ⟨r, w, e, bindings, hload, hw, hdecode', hcase.1, hcase.2, halias, hcarries⟩

end Registry
end CustomIsa
