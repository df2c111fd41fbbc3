import CustomIsa.Proofs.Expr.Tree
/-! # Widths are sound

The width of a node bounds its value: the value has that many bits, the node's type holds them, and
a node that does not overflow has its exact value. Each rule of `Width` is shown to bound the exact
result of its operation; `Width.settle` then brings the result into the type, and the soundness of
the analysis follows by induction on the expression (`Expr.info_sound`), and so for every node of a
tree (`ExprTree.width_sound`). -/
namespace CustomIsa
open Bits

namespace Width

/-- The width describes a value of the type: it holds the value, and the type holds the width. -/
structure Bounds (i : Width) (ty : IntType) (v : Int) : Prop where
  pos : 1 ≤ i.width
  range : Within i.width i.signed v
  held : ty.holds i.width i.signed = true

variable {ty : IntType} {i j : Width} {v a b : Int} {exact : Nat} {signed : Bool}

theorem bounds_ofType (hty : ty.Proper) (hv : ty.Has v) : (ofType ty).Bounds ty v :=
  ⟨hty.1, hv, ty.holds_self⟩

/-- A width is at most that of the type. -/
theorem width_le_of_holds {w : Nat} (h : ty.holds w signed = true) : w ≤ ty.bits := by
  obtain ⟨bits, s⟩ := ty
  cases s <;> cases signed <;> simp only [IntType.holds, decide_eq_true_eq, reduceCtorEq] at h
  · exact h
  · exact Nat.le_of_lt h
  · exact h

/-- **Settling is sound**: it bounds the reduced result, which is the exact one without overflow. -/
theorem bounds_settle (hty : ty.Proper) (hv : Within (max 1 exact) signed v) :
    (settle ty exact signed).Bounds ty (ty.reduce v) ∧
      ((settle ty exact signed).overflow = false → ty.reduce v = v) := by
  rw [settle]
  split
  · rename_i hheld
    have hkeep := IntType.reduce_eq_self hty (IntType.has_of_holds hheld hv)
    rw [hkeep]
    exact ⟨⟨Nat.le_max_left _ _, hv, hheld⟩, fun _ => rfl⟩
  · refine ⟨⟨hty.1, IntType.has_reduce hty v, ty.holds_self⟩, ?_⟩
    intro h
    cases h

/-- At the width where two operands meet, both are numbers of that width. -/
theorem within_unify (hi : 1 ≤ i.width) (hra : Within i.width i.signed a)
    (hrb : Within j.width j.signed b) :
    1 ≤ (unify i j).1 ∧ Within (unify i j).1 (unify i j).2 a ∧
      Within (unify i j).1 (unify i j).2 b := by
  rw [unify]
  cases hsi : i.signed <;> cases hsj : j.signed <;> rw [hsi] at hra <;> rw [hsj] at hrb
  · exact ⟨by simp; omega, hra.mono (by simp), hrb.mono (by simp)⟩
  · exact ⟨by simp, hra.signed.mono (by simp), hrb.mono (by simp)⟩
  · exact ⟨by simp, hra.mono (by simp), hrb.signed.mono (by simp)⟩
  · exact ⟨by simp; omega, hra.mono (by simp), hrb.mono (by simp)⟩

/-! ## Rules -/

theorem bounds_mul {tya tyb : IntType} (hty : ty.Proper) (ha : i.Bounds tya a)
    (hb : j.Bounds tyb b) : (mul ty i j).Bounds ty (ty.reduce (a * b)) ∧
      ((mul ty i j).overflow = false → ty.reduce (a * b) = a * b) := by
  obtain ⟨hi, hra, -⟩ := ha
  obtain ⟨hj, hrb, -⟩ := hb
  rw [mul]
  cases hsi : i.signed <;> cases hsj : j.signed <;> rw [hsi] at hra <;> rw [hsj] at hrb <;>
    refine bounds_settle hty (Within.mono ?_ (Nat.le_max_right _ _))
  · exact hra.mul_unsigned hrb
  · exact hra.signed.mul_signed (Nat.le_add_left _ _) hj hrb
  · exact hra.mul_signed hi (Nat.le_add_left _ _) hrb.signed
  · exact hra.mul_signed hi hj hrb

theorem bounds_and {tya tyb : IntType} (hty : ty.Proper) (ha : i.Bounds tya a)
    (hb : j.Bounds tyb b) : (and ty i j).Bounds ty (ty.reduce (Int.land a b)) ∧
      ((and ty i j).overflow = false → ty.reduce (Int.land a b) = Int.land a b) := by
  obtain ⟨-, hra, -⟩ := ha
  obtain ⟨-, hrb, -⟩ := hb
  rw [and]
  cases hsi : i.signed <;> cases hsj : j.signed <;> rw [hsi] at hra <;> rw [hsj] at hrb <;>
    refine bounds_settle hty (Within.mono ?_ (Nat.le_max_right _ _))
  · rcases Nat.le_total i.width j.width with hle | hle
    · rw [Nat.min_eq_left hle]
      exact hra.land_unsigned b
    · rw [Nat.min_eq_right hle, land_comm]
      exact hrb.land_unsigned a
  · exact hra.land_unsigned b
  · rw [land_comm]
    exact hrb.land_unsigned a
  · exact (hra.mono (Nat.le_max_left _ _)).land_signed (hrb.mono (Nat.le_max_right _ _))

/-- A left shift by `k`; `shift` gives the amount if it is a constant. -/
theorem bounds_shl {tya : IntType} (hty : ty.Proper) (hle : tya.bits ≤ 64) (ha : i.Bounds tya a)
    {shift : Option Int} {k : Int} (hk : ∀ c, shift = some c → c = k) :
    (shl ty i shift).Bounds ty (ty.reduce (a * 2 ^ k.toNat)) ∧
      ((shl ty i shift).overflow = false → ty.reduce (a * 2 ^ k.toNat) = a * 2 ^ k.toNat) := by
  have hany : Bounds { ofType ty with overflow := true } ty (ty.reduce (a * 2 ^ k.toNat)) :=
    ⟨hty.1, IntType.has_reduce hty _, ty.holds_self⟩
  cases shift with
  | none => exact ⟨hany, fun h => by cases h⟩
  | some c =>
    obtain rfl := hk c rfl
    rw [shl]
    split
    · rename_i hc
      -- no width is cut off here: an operand has at most 64 bits
      have hwidth := width_le_of_holds ha.held
      have hmin : min most (i.width + c.toNat) = i.width + c.toNat := by
        rw [most]
        omega
      rw [hmin]
      exact bounds_settle hty ((ha.range.shiftLeft ha.pos c.toNat).mono (Nat.le_max_right _ _))
    · exact ⟨hany, fun h => by cases h⟩

theorem bounds_shr {tya : IntType} (hty : ty.Proper) (ha : i.Bounds tya a) {shift : Option Int}
    {k : Int} (hk : ∀ c, shift = some c → c = k) :
    (shr ty i shift).Bounds ty (ty.reduce (a / 2 ^ k.toNat)) ∧
      ((shr ty i shift).overflow = false → ty.reduce (a / 2 ^ k.toNat) = a / 2 ^ k.toNat) := by
  have hkeep := (ha.range.shiftRight_le ha.pos k.toNat).mono (Nat.le_max_right 1 _)
  cases shift with
  | none => exact bounds_settle hty hkeep
  | some c =>
    obtain rfl := hk c rfl
    rw [shr]
    split
    · exact bounds_settle hty ((ha.range.shiftRight c.toNat).mono (Nat.le_max_right _ _))
    · exact bounds_settle hty hkeep

theorem within_truth (p : Prop) [Decidable p] : Within (max 1 1) false (if p then 1 else 0) := by
  rw [within_unsigned]
  split <;> decide

/-- Every rule for a binary operation bounds its result. -/
theorem bounds_binary {tya tyb : IntType} (hty : ty.Proper) (hle : tya.bits ≤ 64) (op : BinaryOp)
    (ha : i.Bounds tya a) (hb : j.Bounds tyb b) {shift : Option Int}
    (hk : ∀ c, shift = some c → c = b) :
    (binary ty op i j shift).Bounds ty (ty.reduce (op.apply a b)) ∧
      ((binary ty op i j shift).overflow = false → ty.reduce (op.apply a b) = op.apply a b) := by
  obtain ⟨hw, hua, hub⟩ := within_unify ha.pos ha.range hb.range
  cases op with
  | add => exact bounds_settle hty ((hua.add hw hub).mono (Nat.le_max_right _ _))
  | sub => exact bounds_settle hty ((hua.sub hw hub).mono (Nat.le_max_right _ _))
  | mul => exact bounds_mul hty ha hb
  | and => exact bounds_and hty ha hb
  | or => exact bounds_settle hty ((hua.lor hub).mono (Nat.le_max_right _ _))
  | xor => exact bounds_settle hty ((hua.xor hub).mono (Nat.le_max_right _ _))
  | shl => exact bounds_shl hty hle ha hk
  | shr => exact bounds_shr hty ha hk
  | lt | le | gt | ge | eq | ne => exact bounds_settle hty (within_truth _)

theorem bounds_cast {tya : IntType} (hty : ty.Proper) (ha : i.Bounds tya a) :
    (cast ty i).Bounds ty (ty.reduce a) ∧
      ((cast ty i).overflow = false → ty.reduce a = a) := by
  rw [cast]
  split
  · rename_i hheld
    have hkeep := IntType.reduce_eq_self hty (IntType.has_of_holds hheld ha.range)
    rw [hkeep]
    exact ⟨⟨ha.pos, ha.range, hheld⟩, fun _ => rfl⟩
  · refine ⟨⟨hty.1, IntType.has_reduce hty a, ty.holds_self⟩, ?_⟩
    intro h
    cases h

end Width

namespace Expr
variable {α : Type}

/-- A complement in a signed type has room for its exact value. -/
theorem value_complement {env : Env} {tag : α} {a : Expr α} (h : a.Proper) (hadm : a.Admits env)
    (hsigned : a.ty.promoted.signed = true) :
    (Expr.unary tag .not a).value env = (Expr.unary tag .not a).exactValue env :=
  IntType.reduce_eq_self h.ty.promoted (IntType.has_complement (has_value h hadm) hsigned)

/-- **The width of a node is sound.** -/
theorem info_sound {env : Env} {e : Expr α} (h : e.Proper) (hadm : e.Admits env) :
    e.info.Bounds e.ty (e.value env) ∧
      (e.info.overflow = false → e.isComplement = false → e.value env = e.exactValue env) := by
  induction e with
  | var _ name ty => exact ⟨Width.bounds_ofType h hadm, fun _ _ => rfl⟩
  | const _ v ty =>
    have hv := (within_valueWidth v).mono (Nat.le_max_right 1 _)
    have hsound := Width.bounds_settle h.1 hv
    rw [IntType.reduce_eq_self h.1 h.2] at hsound
    exact ⟨hsound.1, fun _ _ => rfl⟩
  | unary _ op a ih =>
    have ha := (ih h hadm).1
    have hty : a.ty.promoted.Proper := (Proper.ty (e := a) h).promoted
    cases op with
    | neg =>
      have hsound := Width.bounds_settle hty
        ((ha.range.neg ha.pos).mono (Nat.le_max_right 1 _))
      exact ⟨hsound.1, fun hover _ => hsound.2 hover⟩
    | not =>
      refine ⟨Width.bounds_ofType hty (IntType.has_reduce hty _), ?_⟩
      intro _ hcompl
      cases hcompl
  | binary _ op a b iha ihb =>
    have ha := (iha h.1 hadm.1).1
    have hb := (ihb h.2 hadm.2).1
    have hty : (op.resultType a.ty b.ty).Proper := (Proper.ty h.1).resultType op (Proper.ty h.2)
    have hshift : ∀ c, b.constant? = some c → c = b.value env := by
      intro c hc
      cases b with
      | const => exact (Option.some.inj hc).symm
      | var | unary | binary | cast | select => cases hc
    have hsound := Width.bounds_binary hty (Proper.ty h.1).2 op ha hb hshift
    exact ⟨hsound.1, fun hover _ => hsound.2 hover⟩
  | cast _ ty a ih =>
    have hsound := Width.bounds_cast h.1 (ih h.2 hadm.2).1
    exact ⟨hsound.1, fun hover _ => hsound.2 hover⟩
  | select _ c a b _ iha ihb =>
    have ha := (iha h.2.1 hadm.2.1).1
    have hb := (ihb h.2.2 hadm.2.2).1
    obtain ⟨hw, hua, hub⟩ := Width.within_unify ha.pos ha.range hb.range
    have harm : Within (max 1 (Width.unify a.info b.info).1) (Width.unify a.info b.info).2
        (if c.value env ≠ 0 then a.value env else b.value env) := by
      split
      · exact hua.mono (Nat.le_max_right _ _)
      · exact hub.mono (Nat.le_max_right _ _)
    have hty := (Proper.ty h.2.1).common (Proper.ty h.2.2)
    have hsound := Width.bounds_settle hty harm
    exact ⟨hsound.1, fun hover _ => hsound.2 hover⟩

end Expr

namespace ExprTree
open CustomIsa.Expr (LeafRule)

/-- The tree was built from drafts, or read from text, over types of 1 to 64 bits that have the
constants and, under the assignment, the variables as values. -/
inductive Origin (env : Env) (t : ExprTree) : Prop where
  | built (drafts : List Draft) (nodes : List (Expr Nat)) (root : Nat)
    (proper : ∀ d ∈ drafts, d.Obeys .proper) (admits : ∀ d ∈ drafts, d.Obeys (.admits env))
    (nodes_eq : Draft.buildAll? [] drafts = some nodes) (tree_eq : ofNodes nodes root = .ok t)
  | read (vars : Typing) (text : String)
    (typed : ∀ name ty, vars.get? name = some ty → ty.Proper ∧ ty.Has (env name))
    (tree_eq : ofText vars text = .ok t)

theorem Origin.proper {env : Env} {t : ExprTree} (h : t.Origin env) : ∀ n ∈ t.nodes, n.Proper := by
  cases h with
  | built drafts nodes root hproper _ hnodes htree => exact obeys_ofNodes hproper hnodes htree
  | read vars text htyped htree =>
    refine obeys_ofText ⟨fun name ty _ hty => (htyped name ty hty).1, ?_, ?_⟩ htree
    · intro v hex unsigned long ty hty
      exact Expr.proper_of_typeOfLiteral hty
    · intro words ty hty
      exact Expr.proper_of_ofWords hty

theorem Origin.admits {env : Env} {t : ExprTree} (h : t.Origin env) :
    ∀ n ∈ t.nodes, n.Admits env := by
  cases h with
  | built drafts nodes root _ hadmits hnodes htree => exact obeys_ofNodes hadmits hnodes htree
  | read vars text htyped htree =>
    exact obeys_ofText ⟨fun name ty _ hty => (htyped name ty hty).2, fun _ _ _ _ _ _ => trivial,
      fun _ _ _ => trivial⟩ htree

/-- **The width analysis is sound.** The value of every node has the width and the sign that the
analysis gives, the type of the node holds them, and a node other than a complement that does not
overflow has its exact value. -/
theorem width_sound {env : Env} {t : ExprTree} (h : t.Origin env) {n : Expr Nat}
    (hn : n ∈ t.nodes) :
    1 ≤ n.info.width ∧
    (n.info.signed = false → 0 ≤ n.value env ∧ n.value env < 2 ^ n.info.width) ∧
    (n.info.signed = true → -(2 ^ (n.info.width - 1) : Int) ≤ n.value env ∧
      n.value env < 2 ^ (n.info.width - 1)) ∧
    n.ty.holds n.info.width n.info.signed = true ∧
    n.value env = n.ty.reduce (n.exactValue env) ∧
    (n.info.overflow = false → n.isComplement = false → n.value env = n.exactValue env) := by
  have hproper := h.proper n hn
  have hadmits := h.admits n hn
  obtain ⟨⟨hpos, hrange, hheld⟩, hexact⟩ := Expr.info_sound hproper hadmits
  refine ⟨hpos, fun hsigned => ?_, fun hsigned => ?_, hheld,
    Expr.value_eq_reduce hproper hadmits, hexact⟩
  · rw [hsigned] at hrange
    exact within_unsigned.mp hrange
  · rw [hsigned] at hrange
    exact within_signed.mp hrange

/-- The expression `(x - 300) >> 8` for a signed byte `x`. -/
def shiftedDifference : Expr Nat :=
  .binary 4 .shr (.binary 2 .sub (.var 0 "x" .i8) (.const 1 300 .i32)) (.const 3 8 .i32)

/-- The shift leaves three bits of the difference. -/
theorem width_sound_shiftedDifference :
    Origin (fun _ => -128) ⟨shiftedDifference.postorder, shiftedDifference⟩ ∧
      shiftedDifference.info.width = 3 ∧ shiftedDifference.value (fun _ => -128) = -2 ∧
      -4 ≤ shiftedDifference.value (fun _ => -128) ∧
      shiftedDifference.value (fun _ => -128) < 4 := by
  have horigin : Origin (fun _ => -128) ⟨shiftedDifference.postorder, shiftedDifference⟩ := by
    refine .built [.var "x" .i8, .const 300 .i32, .binary .sub 0 1, .const 8 .i32,
      .binary .shr 2 3] _ 4 ?_ ?_ rfl rfl
    · simp only [List.forall_mem_cons, Draft.Obeys, LeafRule.proper, List.not_mem_nil,
        false_imp_iff, implies_true]
      decide
    · simp only [List.forall_mem_cons, Draft.Obeys, LeafRule.admits, List.not_mem_nil,
        false_imp_iff, implies_true]
      decide
  refine ⟨horigin, by decide, by decide, ?_⟩
  exact (width_sound horigin (n := shiftedDifference) (by decide)).2.2.1 (by decide)

end ExprTree
end CustomIsa
