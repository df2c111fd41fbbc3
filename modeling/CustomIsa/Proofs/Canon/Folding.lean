import CustomIsa.Proofs.Canon.Chain
import CustomIsa.Proofs.Expr.Tree
import CustomIsa.Proofs.Operator
/-! # Constant expressions

An expression without variables and conditionals folds to its value, as long as no product leaves
128 bits and every shift is by 0 to 126 (`ExprTree.constant_ofText`). Each node folds if what lies
below it does (`Canon.constant_step`). Casts, complements and operators are folded on the values of
their operands. A sum has no terms then, and its constant, gathered from nested sums without being
reduced in between, is congruent to its value. -/
namespace CustomIsa
open Bits

/-- Whether an operation on constants is folded: a product must not leave 128 bits, and a shift must
be by 0 to 126. -/
def BinaryOp.foldable : BinaryOp → Int → Int → Bool
  | .mul, a, b => inInt128 (a * b)
  | .shl, _, b | .shr, _, b => 0 ≤ b && b ≤ 126
  | _, _, _ => true

theorem DyadicOp.exists_fold {op : BinaryOp} {op' : DyadicOp} (hop : ofBinary? op = some op')
    {a b : Int} (h : op.foldable a b = true) : ∃ v, op'.fold? a b = some v := by
  cases op <;> cases hop
  case mul => exact ⟨_, if_pos h⟩
  case shl =>
    rw [BinaryOp.foldable, Bool.and_eq_true, decide_eq_true_iff, decide_eq_true_iff] at h
    exact ⟨_, if_pos ⟨h.1, by omega⟩⟩
  case shr =>
    rw [BinaryOp.foldable, Bool.and_eq_true, decide_eq_true_iff, decide_eq_true_iff] at h
    exact ⟨_, if_pos ⟨h.1, by omega⟩⟩
  all_goals exact ⟨_, rfl⟩

namespace Expr
variable {α : Type} {env : Env}

/-- Whether the topmost node is folded if its operands are. -/
def foldable (env : Env) : Expr α → Bool
  | .var _ _ _ | .select _ _ _ _ => false
  | .const _ _ _ | .unary _ _ _ | .cast _ _ _ => true
  | .binary _ op a b => op.foldable (a.value env) (b.value env)

/-- The expression has neither variables nor conditionals, no product in it leaves 128 bits, and
every shift in it is by 0 to 126. -/
def IsConstant (env : Env) (e : Expr α) : Prop := ∀ s ∈ e.preorder, s.foldable env = true

instance (e : Expr α) : Decidable (e.IsConstant env) :=
  inferInstanceAs (Decidable (∀ s ∈ e.preorder, s.foldable env = true))

theorem IsConstant.of_mem {e s : Expr α} (h : e.IsConstant env) (hs : s ∈ e.preorder) :
    s.IsConstant env := fun u hu => h u (mem_preorder_trans hs hu)

theorem IsConstant.of_child {e a : Expr α} (h : e.IsConstant env) (ha : a ∈ e.children) :
    a.IsConstant env := h.of_mem (mem_preorder_of_child ha a.mem_preorder_self)

/-- Where there are no variables, it does not matter what a rule says of them. -/
theorem IsConstant.obeys {rule rule' : LeafRule} {e : Expr α} (h : e.IsConstant env)
    (he : e.Obeys rule) (hconst : ∀ v ty, rule.const v ty → rule'.const v ty)
    (hcast : ∀ ty, rule.cast ty → rule'.cast ty) : e.Obeys rule' := by
  induction e with
  | var tag name ty => cases h _ (mem_preorder_self _)
  | select tag c a b => cases h _ (mem_preorder_self _)
  | const tag v ty => exact hconst v ty he
  | unary tag op a ih => exact ih (h.of_child (by simp [children])) he
  | cast tag ty a ih => exact ⟨hcast ty he.1, ih (h.of_child (by simp [children])) he.2⟩
  | binary tag op a b iha ihb =>
    exact ⟨iha (h.of_child (by simp [children])) he.1, ihb (h.of_child (by simp [children])) he.2⟩

end Expr

namespace Canon
variable {env : Env} {m : Expr Nat}

theorem constant_castNode {c : Canon} {v : Int} (hv : c.constant? = some v) (e : Expr Nat)
    (ty : IntType) :
    (castNode e ty c).constant? = some (if e.info.overflow then ty.reduce v else v) := by
  cases hover : e.info.overflow with
  | false => simp [castNode, hover, hv]
  | true =>
    rw [castNode, hover, hv]
    rfl

theorem constant_notNode {c : Canon} {v : Int} (hv : c.constant? = some v) (e : Expr Nat) :
    (notNode e c).constant? = some (e.ty.reduce (-v - 1)) := by
  rw [notNode, hv]
  rfl

theorem constant_dyadicNode {a b : Canon} {va vb v : Int} {op : DyadicOp}
    (ha : a.constant? = some va) (hb : b.constant? = some vb) (hv : op.fold? va vb = some v)
    (e : Expr Nat) : (dyadicNode e op a b).constant? = some (e.ty.reduce v) := by
  rw [dyadicNode, folded?, ha, hb]
  simp only [Option.bind_eq_bind, Option.bind_some, hv]
  rfl

section
variable (hproper : m.Proper) (hadm : m.Admits env)
  (hbelow : ∀ {s}, s.Under m → (ofExpr s).constant? = some (s.value env))
include hproper hadm hbelow

/-- A sum whose operands fold folds as well. -/
theorem constant_sum (hadd : m.isAdditive = true) :
    (ofExpr m).constant? = some (m.value env) := by
  -- a term of the chain would be the form of an operand and no constant
  have hterms : (Chain.ofSum m).terms = [] := by
    refine List.eq_nil_iff_forall_not_mem.mpr fun t ht => ?_
    obtain ⟨hnone, s, hs, heq⟩ := Chain.term_ofSum ht
    rw [heq, hbelow hs] at hnone
    cases hnone
  have hleft := Chain.left_eq_nil hterms
  have hconst : Chain.ConstantsHold env m.ty m := by
    intro s hs v hv
    rw [hbelow ((Chain.Operand.of_mem_leaves hs).under hadd (Chain.merges_self m))] at hv
    exact Option.some.inj hv
  have hkeys : Chain.KeysHold env m := by
    intro t ht
    rw [hterms] at ht
    cases ht
  have hvalue := Chain.reduce_sumValue hproper hadm hconst hadd hkeys
  rw [Chain.sumValue, hleft, Chain.termsValue, Int.zero_add] at hvalue
  have hremains := Chain.remains_ofSum hadd
  generalize ofExpr m = c at hremains
  cases hremains with
  | const => exact congrArg some hvalue
  | term _ _ hone =>
    rw [hleft] at hone
    cases hone
  | sum _ _ hne => exact absurd hleft hne

/-- **An expression folds to its value if those below it do.** -/
theorem constant_step (hm : m.foldable env = true) :
    (ofExpr m).constant? = some (m.value env) := by
  have hchild : ∀ a ∈ m.children, (ofExpr a).constant? = some (a.value env) :=
    fun a ha => hbelow (Expr.under_of_child ha a.mem_preorder_self)
  cases m with
  | var | select => cases hm
  | const => rfl
  | cast tag ty a =>
    rw [ofExpr, constant_castNode (hchild a (by simp [Expr.children]))]
    split
    · rfl
    · rename_i hover
      have hkept := (Expr.info_sound hproper hadm).2 (by simpa using hover) rfl
      exact congrArg some hkept.symm
  | unary tag op a =>
    cases op with
    | neg => exact constant_sum hproper hadm hbelow rfl
    | not =>
      rw [ofExpr, constant_notNode (hchild a (by simp [Expr.children]))]
      rfl
  | binary tag op a b =>
    cases hop : DyadicOp.ofBinary? op with
    | none => exact constant_sum hproper hadm hbelow (Chain.isAdditive_of_ofBinary hop)
    | some op' =>
      obtain ⟨v, hv⟩ := DyadicOp.exists_fold hop hm
      obtain ⟨hlow, hhigh⟩ := IntType.magnitude_of_has (Expr.Proper.ty hproper.1)
        (Expr.has_value hproper.1 hadm.1)
      have hfold := DyadicOp.reduce_fold hproper.ty (by omega) (by omega) hv
      rw [DyadicOp.apply_ofBinary hop] at hfold
      rw [ofExpr, hop]
      refine (constant_dyadicNode (hchild a (by simp [Expr.children]))
        (hchild b (by simp [Expr.children])) hv _).trans ?_
      exact congrArg some hfold

end

/-- **A constant expression folds to its value.** -/
theorem constant_ofExpr (hproper : m.Proper) (hadm : m.Admits env) (h : m.IsConstant env) :
    (ofExpr m).constant? = some (m.value env) := by
  induction hsize : m.size using Nat.strongRecOn generalizing m with
  | ind _ ih =>
    subst hsize
    refine constant_step hproper hadm (fun {s} hs => ?_) (h m m.mem_preorder_self)
    exact ih _ hs.size (hproper.of_mem_preorder hs.mem) (hadm.of_mem_preorder hs.mem)
      (h.of_mem hs.mem) rfl

end Canon

namespace ExprTree
open CustomIsa.Expr

/-- Literals and casts have proper types, whatever the types of the variables. -/
def literalRule : LeafRule := { LeafRule.proper with var := fun _ _ => True }

/-- **A constant expression read from text folds to its value**, at every node of a tree. -/
theorem constant_ofText {env : Env} {vars : Typing} {text : String} {t : ExprTree}
    (htext : ofText vars text = .ok t) {p : Expr Nat} (hp : p ∈ t.nodes)
    (h : p.IsConstant env) : (Canon.ofExpr p).constant? = some (p.value env) := by
  have hreads : literalRule.Reads vars :=
    ⟨fun _ _ _ _ => trivial, fun _ _ _ _ _ hty => proper_of_typeOfLiteral hty,
      fun _ _ hty => proper_of_ofWords hty⟩
  have hobeys := obeys_ofText hreads htext p hp
  exact Canon.constant_ofExpr (h.obeys hobeys (fun _ _ hv => hv) fun _ hty => hty)
    (h.obeys hobeys (fun _ _ _ => trivial) fun _ _ => trivial) h

end ExprTree
end CustomIsa
