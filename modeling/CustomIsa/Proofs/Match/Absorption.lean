import CustomIsa.Proofs.Expr.Linear
import CustomIsa.Proofs.Match.Written
/-! # Immediates that absorb constants

A template that adds an immediate to a register aligns with a sum of one term, and the immediate
takes the constant of the sum (`Match.aligned_absorber_iff`). A number that is added to a variable
of a whole register does not stay what is written: the sum may wrap, so its constant is brought into
the type of the sum (`Canon.ofExpr_offset`). In a signed type, and for positive numbers, that leaves
it alone; a negative number becomes a large one in an unsigned type, which few immediates take. -/
namespace CustomIsa
open Canon (ofExpr)

/-! ## Numbers added to a variable -/

namespace Expr
variable {vars : Typing}

/-- The operation that adds a number, given its absolute value. -/
def offsetOp (k : Int) : BinaryOp := if k < 0 then .sub else .add

/-- A variable with a number added to it. -/
def offset {α : Type} (tag left right : α) (x : String) (ty : IntType) (k : Int) : Expr α :=
  .binary tag (offsetOp k) (.var left x ty) (.const right k.natAbs .i32)

/-- The text of a variable with a number added to it: `x + 5`, and `x - 5` for `-5`. -/
def offsetText (x : String) (k : Int) : String :=
  x ++ (if k < 0 then " - " else " + ") ++ toString k.natAbs

theorem offsetOp_cases (k : Int) :
    k < 0 ∧ offsetOp k = .sub ∨ 0 ≤ k ∧ offsetOp k = .add := by
  rcases lt_or_ge k 0 with hneg | hpos
  · exact .inl ⟨hneg, if_pos hneg⟩
  · exact .inr ⟨hpos, if_neg (Int.not_lt.mpr hpos)⟩

theorem ofText_offsetText {x : String} {ty : IntType} {k : Int} (hx : IsWord x)
    (hvars : vars.get? x = some ty) (hk : k.natAbs < 2 ^ 31) :
    ofText vars (offsetText x k) = .ok (offset () () () x ty k) := by
  have hvar : (Expr.var () x ty).Readable vars := ⟨hx, hvars⟩
  have hconst : (Expr.const () k.natAbs .i32).Readable vars :=
    ⟨k.natAbs, rfl, typeOfLiteral_of_lt hk⟩
  rw [offset, ← ofText_binary hvar hconst, offsetText, offsetOp]
  congr 2
  split <;> rfl

section
variable {tag left right bits : Nat} {signed : Bool} {x : String} {k : Int}

theorem isAdditive_offset {ty : IntType} : (offset tag left right x ty k).isAdditive = true := by
  rcases offsetOp_cases k with ⟨-, hop⟩ | ⟨-, hop⟩ <;> rw [offset, hop] <;> rfl

variable (hbits : bits = 32 ∨ bits = 64)
include hbits

/-- The type of a register is not changed by a small literal. -/
theorem ty_offset : (offset tag left right x ⟨bits, signed⟩ k).ty = ⟨bits, signed⟩ := by
  have hcommon : (offset tag left right x ⟨bits, signed⟩ k).ty =
      IntType.common ⟨bits, signed⟩ .i32 := by
    rcases offsetOp_cases k with ⟨-, hop⟩ | ⟨-, hop⟩ <;> rw [offset, hop] <;> rfl
  rw [hcommon]
  rcases hbits with rfl | rfl <;> cases signed <;> rfl

/-- The variable is as wide as the type, and the sum takes a bit more. -/
theorem overflow_offset : (offset tag left right x ⟨bits, signed⟩ k).info.overflow = true := by
  by_contra hexact
  obtain ⟨hlt, hle⟩ := width_lt_of_exact isAdditive_offset (Bool.eq_false_iff.mpr hexact)
    (a := .var left x ⟨bits, signed⟩) List.mem_cons_self
  rw [ty_offset hbits] at hle
  exact absurd hlt (Nat.not_lt.mpr hle)

end

end Expr

/-- A small number in the type of a register. -/
theorem IntType.reduce_small {bits : Nat} (hbits : bits = 32 ∨ bits = 64) (signed : Bool) {k : Int}
    (hzero : k ≠ 0) (hk : k.natAbs < 2 ^ 31) :
    reduce ⟨bits, signed⟩ k = if signed = true ∨ 0 < k then k else 2 ^ bits + k := by
  have hproper : Proper ⟨bits, signed⟩ := by rcases hbits with rfl | rfl <;> simp [Proper]
  split
  · rename_i hsigned
    refine reduce_eq_self hproper ?_
    cases signed with
    | true =>
      show -(2 ^ (bits - 1) : Int) ≤ k ∧ k < 2 ^ (bits - 1)
      rcases hbits with rfl | rfl <;> omega
    | false =>
      have hpos : 0 < k := hsigned.resolve_left Bool.false_ne_true
      show 0 ≤ k ∧ k < 2 ^ bits
      rcases hbits with rfl | rfl <;> omega
  · rename_i hsigned
    obtain ⟨hunsigned, hneg⟩ := not_or.mp hsigned
    obtain rfl := Bool.eq_false_iff.mpr hunsigned
    have hle : bits ≤ 64 := hproper.2
    rw [reduce_unsigned hle]
    rcases hbits with rfl | rfl <;> omega

/-- The chain of a variable with a number added to it. -/
theorem Chain.ofSum_offset (tag left right : Nat) (x : String) (ty : IntType) {k : Int}
    (hk : k.natAbs < 2 ^ 31) :
    (ofSum (.offset tag left right x ty k)).left = [(false, Canon.ofExpr (.var left x ty))] ∧
      (ofSum (.offset tag left right x ty k)).constant = k := by
  have hkeep : Bits.wrap128 k = k := Bits.wrap128_eq_self (by omega) (by omega)
  have hsigned : (if (Expr.offsetOp k).subtracts = true then -(k.natAbs : Int) else k.natAbs) =
      k := by
    rcases Expr.offsetOp_cases k with ⟨hneg, hop⟩ | ⟨hpos, hop⟩
    · rw [hop, BinaryOp.subtracts, if_pos rfl]
      omega
    · rw [hop]
      exact Int.natAbs_of_nonneg hpos
  constructor
  · rfl
  · show Bits.wrap128 (0 + Bits.wrap128 (if (Expr.offsetOp k).subtracts = true then
      -(k.natAbs : Int) else k.natAbs)) = k
    rw [hsigned, hkeep, Int.zero_add, hkeep]

/-- **A number added to a variable of a whole register is the constant of a sum of one term,**
brought into the type of the variable. -/
theorem Canon.ofExpr_offset (tag left right : Nat) {bits : Nat} (hbits : bits = 32 ∨ bits = 64)
    (signed : Bool) (x : String) {k : Int} (hzero : k ≠ 0) (hk : k.natAbs < 2 ^ 31) :
    IntType.reduce ⟨bits, signed⟩ k ≠ 0 ∧
      ∃ o adds, ofExpr (.offset tag left right x ⟨bits, signed⟩ k) =
        .sum o [(false, ofExpr (.var left x ⟨bits, signed⟩))] (IntType.reduce ⟨bits, signed⟩ k)
          adds := by
  have hne : IntType.reduce ⟨bits, signed⟩ k ≠ 0 := by
    have hpow : (2 : Int) ^ 32 ≤ 2 ^ bits := by rcases hbits with rfl | rfl <;> decide
    rw [IntType.reduce_small hbits signed hzero hk]
    split <;> omega
  obtain ⟨hleft, hconstant⟩ := Chain.ofSum_offset tag left right x ⟨bits, signed⟩ hk
  have hremains := Chain.remains_ofSum (e := .offset tag left right x ⟨bits, signed⟩ k)
    Expr.isAdditive_offset
  rw [hleft, Chain.constantIn, if_pos (Expr.overflow_offset hbits), hconstant,
    Expr.ty_offset hbits] at hremains
  refine ⟨hne, ?_⟩
  generalize ofExpr (.offset tag left right x ⟨bits, signed⟩ k) = c at hremains
  cases hremains with
  | const _ hnil => cases hnil
  | term _ _ _ hk => exact absurd hk hne
  | sum o adds => exact ⟨o, adds, rfl⟩

/-! ## The template -/

/-- The definition adds an immediate to a register, and nothing else. -/
structure Definition.AddsImmediate (d : Definition) (rs imm : Operand) : Prop where
  register_mem : rs ∈ d.operands
  register : rs.kind = .register
  immediate_mem : imm ∈ d.operands
  immediate : imm.kind = .immediate
  named : ∀ op ∈ [rs, imm], Sexp.literal? op.name = none
  text : ∃ text, d.template = some text ∧
    Sexp.ofText text = .ok (.app "add" [] [.atom rs.name [], .atom imm.name []])

/-- The template that adds an immediate to a register. -/
def Template.absorber (rs imm : Operand) : Template :=
  .sum [] [(false, .register [] rs)] 0 (some imm)

section
variable {d : Definition} {rs imm : Operand} (h : d.AddsImmediate rs imm)
include h

theorem Template.reads_absorber : (absorber rs imm).Reads d.operands := by
  simp only [absorber, Reads, ReadsTerms]
  refine ⟨⟨⟨h.register_mem, h.register⟩, trivial⟩, fun op hop => ?_, List.cons_ne_nil _ _⟩
  obtain rfl := Option.some.inj hop
  exact ⟨h.immediate_mem, h.immediate⟩

theorem Template.ofText_absorber (hd : d.Valid) {text : String} (htext : d.template = some text)
    {t : Template} (ht : ofText d text = .ok t) : t = absorber rs imm := by
  obtain ⟨text', htext', hs⟩ := h.text
  obtain rfl := Option.some.inj (htext.symm.trans htext')
  obtain ⟨used, hcompile⟩ := compile_of_ofText hs ht
  obtain ⟨-, g, hg, ht⟩ := compile_additive rfl hcompile
  obtain ⟨first, v, hfirst, hrest⟩ := gatherAll_cons hg
  obtain ⟨last, w, hlast, hnil⟩ := gatherAll_cons hrest
  obtain ⟨rfl, -⟩ := gatherAll_nil hnil
  rw [gather] at hfirst hlast
  obtain rfl := Gathered.pushName_register hd h.register_mem (h.named rs (by simp)) h.register
    hfirst
  obtain rfl := Gathered.pushName_immediate hd h.immediate_mem (h.named imm (by simp)) h.immediate
    hlast
  exact (Except.ok.inj ht).symm

end

/-! ## The alignment -/

namespace Match
variable {limits : Limits} {rs imm : Operand} {o : Origin} {c : Canon} {v : Int} {adds : List Nat}

/-- **An immediate that is added to a register takes the constant of a sum of one term,** unless
that is zero. -/
theorem aligned_absorber_iff {ms : List (Operand × Slot)} :
    Aligned limits (.absorber rs imm) (.sum o [(false, c)] v adds) ms ↔
      v ≠ 0 ∧ 1 ≤ limits.maxTerms ∧ ms = [(imm, .imm v), (rs, .node c)] := by
  constructor
  · intro h
    cases h with
    | sum _ hcount hpaired hconst hterms =>
      obtain ⟨c', rfl, haligned⟩ := alignedTerms_singleton_iff.mp hterms
      cases List.singleton_perm.mp hpaired
      cases haligned
      cases hconst with
      | absorbed hne =>
        rw [Int.sub_zero]
        exact ⟨hne, hcount, rfl⟩
  · rintro ⟨hne, hcount, rfl⟩
    have hconst : MeetsConstant 0 (some imm) v [(imm, .imm (v - 0))] := .absorbed hne
    rw [Int.sub_zero] at hconst
    have hcount' : [(false, c)].length ≤ limits.maxTerms := hcount
    exact .sum (guardsHold_nil _) hcount' (.refl _) hconst
      (alignedTerms_singleton_iff.mpr ⟨c, rfl, .register (guardsHold_nil _)⟩)

theorem consistent_absorber_iff (hfits : fitsRegister limits.xlen rs c.info = true) :
    Consistent limits [(imm, .imm v), (rs, .node c)] ↔ imm.inRange v = true := by
  refine ⟨fun h => h.inRange imm v List.mem_cons_self, fun hrange => ?_⟩
  refine ⟨?_, ?_, ?_, ?_⟩ <;> simp_all

/-- At a sum of one term, an attempt succeeds if the immediate takes the constant, and binds it. -/
theorem attempt_absorber {e : Entry} {p : Expr Nat} (hvalid : e.definition.Valid)
    (hadds : e.definition.AddsImmediate rs imm) (ht : e.template = some (.absorber rs imm))
    (hform : ofExpr p = .sum o [(false, c)] v adds) (hv : v ≠ 0) (hterms : 1 ≤ limits.maxTerms)
    (hfits : fitsRegister limits.xlen rs c.info = true) :
    ((attempt limits e (ofExpr p)).isSome = true ↔ imm.inRange v = true) ∧
      ∀ cand, attempt limits e (ofExpr p) = some cand →
        cand.binding? imm.name = some (.imm v) := by
  have hreads := Template.reads_absorber hadds
  refine ⟨?_, fun cand hcand => ?_⟩
  · rw [attempt_isSome_iff_consistent hvalid ht hreads ⟨p, rfl⟩, hform,
      ← consistent_absorber_iff hfits]
    simp only [aligned_absorber_iff]
    constructor
    · rintro ⟨ms, ⟨-, -, rfl⟩, hconsistent⟩
      exact hconsistent
    · exact fun hconsistent => ⟨_, ⟨hv, hterms, rfl⟩, hconsistent⟩
  · obtain ⟨ms, haligned, hconsistent, hbinds⟩ := binds_of_attempt hvalid ht hreads ⟨p, rfl⟩ hcand
    rw [hform] at haligned
    obtain ⟨-, -, rfl⟩ := aligned_absorber_iff.mp haligned
    have hrange := (consistent_absorber_iff hfits).mp hconsistent
    obtain ⟨met, bound, hmet, hbound, hbinding⟩ := hbinds imm (.imm v) List.mem_cons_self
    rcases List.mem_cons.mp hmet with heq | hmet
    · cases heq
      rw [boundOf?, if_pos (Operand.inInt64_of_inRange hrange)] at hbound
      rw [hbinding, hbound]
    · obtain ⟨rfl, -⟩ := Prod.mk.inj (List.mem_singleton.mp hmet)
      cases hadds.register.symm.trans hadds.immediate

end Match

namespace Matcher
open Match

/-- Where nothing is rounded, candidates stem from the templates of their own definitions. -/
theorem mem_matchAt_of_unrounded {m : Matcher} {p : Expr Nat}
    (h : roundingShift? (ofExpr p) = none) {cand : Candidate} :
    cand ∈ m.matchAt p ↔ ∃ e ∈ m.shaped (ofExpr p), attempt m.limits e (ofExpr p) = some cand := by
  rw [matchAt, mem_candidates_iff, h]
  simp

theorem findsAt_of_unrounded {m : Matcher} (hm : m.registry.Loaded) {p : Expr Nat}
    (h : roundingShift? (ofExpr p) = none) {e : Entry} :
    m.FindsAt p e ↔
      e ∈ m.registry.entries ∧ (attempt m.limits e (ofExpr p)).isSome = true := by
  rw [findsAt_iff, h, and_congr_left fun hsome => mem_shaped_iff hm hsome]
  simp

/-- **An immediate takes the number that is added to a register.** In a loaded registry, take a
definition that adds an immediate to a register not narrower than the registers of the machine, and
a small number in the range of the immediate, added to a variable of a whole register. The text is
an expression, and the definition is found at its root if the variable is signed or the number is
positive; the immediate is bound to the number then. A negative number counts modulo the size of the
register if the variable is unsigned, and the definition is found only if the immediate takes it as
such. -/
theorem added_constant_absorbed {config : RegistrySettings} {extensions : List Extension}
    {r : Registry} (hload : Registry.load config extensions = .ok r) (settings : MatchSettings)
    (hterms : 1 ≤ settings.maxSumTerms) {e : Entry} (he : e ∈ r.entries) {rs imm : Operand}
    (hadds : e.definition.AddsImmediate rs imm) (hwide : r.xlen ≤ rs.width) {k : Int}
    (hzero : k ≠ 0) (hrange : imm.inRange k = true) (hk : k.natAbs < 2 ^ 31) {vars : Typing}
    {x : String} (hx : Expr.IsWord x) {signed : Bool}
    (hvars : vars.get? x = some ⟨r.xlen, signed⟩) :
    ∃ tree, ExprTree.ofText vars (Expr.offsetText x k) = .ok tree ∧
      ((Matcher.new r settings).FindsAt tree.root e ↔
        signed = true ∨ 0 < k ∨ imm.inRange (2 ^ r.xlen + k) = true) ∧
      ∀ cand ∈ (Matcher.new r settings).matchAt tree.root, cand.instruction.entry = e →
        cand.binding? imm.name =
          some (.imm (if signed = true ∨ 0 < k then k else 2 ^ r.xlen + k)) := by
  have hxlen := Registry.xlen_eq_of_load hload
  have hr := Registry.loaded_of_load hload
  have hvalid := hr.valid he
  obtain ⟨text, htext, -⟩ := hadds.text
  obtain ⟨t, ht, hcompiled⟩ := Registry.ofText_of_load hload he htext
  obtain rfl := Template.ofText_absorber hadds hvalid htext hcompiled
  refine ⟨.ofExpr (.offset () () () x ⟨r.xlen, signed⟩ k), ?_, ?_⟩
  · rw [ExprTree.ofText, Expr.ofText_offsetText hx hvars hk]
    rfl
  show ((Matcher.new r settings).FindsAt (.offset 2 0 1 x ⟨r.xlen, signed⟩ k) e ↔ _) ∧
    ∀ cand ∈ (Matcher.new r settings).matchAt (.offset 2 0 1 x ⟨r.xlen, signed⟩ k), _
  obtain ⟨hne, o, adds, hform⟩ := Canon.ofExpr_offset 2 0 1 hxlen signed x hzero hk
  have hfits : fitsRegister r.xlen rs (ofExpr (.var 0 x ⟨r.xlen, signed⟩)).info = true := by
    rw [fitsRegister, if_pos hwide]
    exact decide_eq_true hwide
  have hcount : 1 ≤ (Matcher.new r settings).limits.maxTerms :=
    Nat.le_min.mpr ⟨hterms, by decide⟩
  obtain ⟨hsome, hbinds⟩ := attempt_absorber hvalid hadds ht hform hne hcount hfits
  rw [IntType.reduce_small hxlen signed hzero hk] at hsome hbinds
  have hunrounded : roundingShift? (ofExpr (.offset 2 0 1 x ⟨r.xlen, signed⟩ k)) = none := by
    rw [hform]
    rfl
  constructor
  · have hfinds : (Matcher.new r settings).FindsAt (.offset 2 0 1 x ⟨r.xlen, signed⟩ k) e ↔
        imm.inRange (if signed = true ∨ 0 < k then k else 2 ^ r.xlen + k) = true := by
      rw [findsAt_of_unrounded hr hunrounded, hsome]
      exact and_iff_right he
    rw [hfinds, ← or_assoc]
    split
    · rename_i hkept
      exact iff_of_true hrange (.inl hkept)
    · rename_i hwraps
      rw [or_iff_right hwraps]
  · intro cand hcand hentry
    obtain ⟨e', -, hattempt⟩ := (mem_matchAt_of_unrounded hunrounded).mp hcand
    obtain rfl := (entry_of_attempt hattempt).symm.trans hentry
    exact hbinds cand hattempt

/-- A signed immediate of twelve bits. -/
def shortImmediate : Operand := { name := "imm", kind := .immediate, width := 12, signed := true }

/-- An addition of an immediate. -/
def addImmediate : Definition where
  mnemonic := "addi"
  operands := [Bundled.register "rd" 32 true .output, Bundled.register "rs1" 32 true,
    shortImmediate]
  layout := {
    fixed := [⟨14, 12, 0⟩, ⟨6, 0, 43⟩]
    fields := [⟨"imm", 31, 20, 0⟩, ⟨"rs1", 19, 15, 0⟩, ⟨"rd", 11, 7, 0⟩] }
  template := some "(add rs1 imm)"

theorem addsImmediate_addImmediate :
    addImmediate.AddsImmediate (Bundled.register "rs1" 32 true) shortImmediate where
  register_mem := by decide
  register := rfl
  immediate_mem := by decide
  immediate := rfl
  named := by decide
  text := ⟨_, rfl, by rfl⟩

/-- A signed variable is decremented by the addition of a negative immediate. -/
theorem added_constant_absorbed_decrement :
    ∃ r e tree cand, Registry.load {} [⟨"i", "Immediates", [addImmediate]⟩] = .ok r ∧
      e ∈ r.entries ∧ e.definition = addImmediate ∧
      ExprTree.ofText (.ofList [("x", .i32)]) "x - 5" = .ok tree ∧
      cand ∈ (Matcher.new r {}).matchAt tree.root ∧ cand.instruction.entry = e ∧
      cand.binding? "imm" = some (.imm (-5)) := by
  have hrun : (Registry.load {} [⟨"i", "Immediates", [addImmediate]⟩]).toOption.any (fun r =>
      r.xlen = 32 && r.entries.any fun e => e.definition = addImmediate) = true := by
    decide +kernel
  obtain ⟨r, hload, hrun⟩ := Option.any_eq_true _ _ |>.mp hrun
  obtain ⟨hxlen, hentry⟩ := Bool.and_eq_true_iff.mp hrun
  have hxlen := of_decide_eq_true hxlen
  obtain ⟨e, he, hdefinition⟩ := List.any_eq_true.mp hentry
  have hload := eq_ok_of_toOption hload
  have hdefinition := of_decide_eq_true hdefinition
  have hvars : NameMap.get? (.ofList [("x", .i32)]) "x" = some (⟨r.xlen, true⟩ : IntType) := by
    rw [hxlen]
    decide +kernel
  obtain ⟨tree, htree, hfinds, hbinds⟩ := added_constant_absorbed hload {} (by decide) he
    (hdefinition ▸ addsImmediate_addImmediate) (by rw [hxlen]; decide) (k := -5) (by decide)
    (by decide) (by decide) ⟨'x', [], rfl, rfl, by simp⟩ hvars
  obtain ⟨cand, hcand, hentry⟩ := hfinds.mpr (.inl rfl)
  exact ⟨r, e, tree, cand, hload, he, hdefinition, htree, hcand, hentry, hbinds cand hcand hentry⟩

/-- An unsigned variable is not decremented in this way: `-5` counts as `2 ^ 32 - 5` there, which is
no immediate of twelve bits. -/
theorem decrement_of_unsigned_missed :
    ∃ r e tree, Registry.load {} [⟨"i", "Immediates", [addImmediate]⟩] = .ok r ∧ e ∈ r.entries ∧
      e.definition.AddsImmediate (Bundled.register "rs1" 32 true) shortImmediate ∧ r.xlen = 32 ∧
      shortImmediate.inRange (-5) = true ∧
      ExprTree.ofText (.ofList [("x", .u32)]) "x - 5" = .ok tree ∧
      ¬(Matcher.new r {}).FindsAt tree.root e := by
  have hrun : (Registry.load {} [⟨"i", "Immediates", [addImmediate]⟩]).toOption.any (fun r =>
      r.xlen = 32 && (r.entries.any fun e => e.definition = addImmediate) &&
        (ExprTree.ofText (.ofList [("x", .u32)]) "x - 5").toOption.any fun tree =>
          ((Matcher.new r {}).matchAt tree.root).isEmpty) = true := by
    decide +kernel
  obtain ⟨r, hload, hrun⟩ := Option.any_eq_true _ _ |>.mp hrun
  obtain ⟨hrun, htree⟩ := Bool.and_eq_true_iff.mp hrun
  obtain ⟨hxlen, hentry⟩ := Bool.and_eq_true_iff.mp hrun
  obtain ⟨e, he, hdefinition⟩ := List.any_eq_true.mp hentry
  obtain ⟨tree, htree, hempty⟩ := Option.any_eq_true _ _ |>.mp htree
  refine ⟨r, e, tree, eq_ok_of_toOption hload, he, ?_, of_decide_eq_true hxlen, by decide,
    eq_ok_of_toOption htree, ?_⟩
  · rw [of_decide_eq_true hdefinition]
    exact addsImmediate_addImmediate
  · rintro ⟨cand, hcand, -⟩
    rw [List.isEmpty_iff.mp hempty] at hcand
    cases hcand

end Matcher
end CustomIsa
