import CustomIsa.Proofs.Canon.Source
import CustomIsa.Proofs.Expr.Width
import CustomIsa.Proofs.Foundations
/-! # The value of a chain

A chain of additions adds up to the value of the expression it was gathered from: modulo the size
of the type in which the chain computes (`Chain.value_modEq`), and exactly where the expression does
not overflow (`Chain.value_eq`), also where types mix (`ExprTree.value_of_gathered`). Sorting and
cancelling terms keep what they weigh together, as long as opposite terms with equal keys weigh the
same (`Chain.weigh_left`), and so a sum has the value of its expression (`Chain.reduce_sumValue`,
`Chain.sumValue_eq`). -/
namespace CustomIsa
open Bits

/-- The value of the expression that the form stands for. -/
def Canon.sourceValue (env : Env) (c : Canon) : Int := c.origin.source.value env

theorem Canon.sourceValue_ofExpr (env : Env) (e : Expr Nat) :
    (Canon.ofExpr e).sourceValue env = e.value env := by
  rw [sourceValue, source_ofExpr]

namespace Chain

/-- A number, or its negation. -/
def signed (negated : Bool) (v : Int) : Int := if negated then -v else v

/-- The sum of signed terms. -/
def termsValue (env : Env) : List (Bool × Canon) → Int
  | [] => 0
  | t :: ts => signed t.1 (t.2.sourceValue env) + termsValue env ts

/-- What a chain adds up to. -/
def value (env : Env) (ch : Chain) : Int := termsValue env ch.terms + ch.constant

variable {env : Env}

theorem signed_xor (negated subtracts : Bool) (v : Int) :
    signed (negated ^^ subtracts) v = signed negated (signed subtracts v) := by
  cases negated <;> cases subtracts <;> simp [signed]

theorem signed_not (negated : Bool) (v : Int) : signed (!negated) v = signed negated (-v) := by
  cases negated <;> simp [signed]

theorem signed_add (negated : Bool) (a b : Int) :
    signed negated (a + b) = signed negated a + signed negated b := by
  cases negated
  · rfl
  · exact Int.neg_add

theorem signed_modEq {n a b : Int} (negated : Bool) (h : a ≡ b [ZMOD n]) :
    signed negated a ≡ signed negated b [ZMOD n] := by
  cases negated
  · exact h
  · exact h.neg

/-! ## Terms -/

/-- The sum of what signed terms weigh. -/
def weigh (f : Canon → Int) : List (Bool × Canon) → Int
  | [] => 0
  | t :: ts => signed t.1 (f t.2) + weigh f ts

variable {f : Canon → Int}

theorem weigh_append (ts us : List (Bool × Canon)) :
    weigh f (ts ++ us) = weigh f ts + weigh f us := by
  induction ts with
  | nil => exact (Int.zero_add _).symm
  | cons t ts ih =>
    rw [List.cons_append, weigh, weigh, ih, Int.add_assoc]

theorem weigh_perm {ts us : List (Bool × Canon)} (h : ts.Perm us) : weigh f ts = weigh f us := by
  induction h with
  | nil => rfl
  | cons t _ ih => rw [weigh, weigh, ih]
  | swap t u ts =>
    simp only [weigh]
    omega
  | trans _ _ ih ih' => exact ih.trans ih'

/-- Cancelling keeps the sum, if opposite terms with equal keys weigh the same. -/
theorem weigh_cancel {kept ts : List (Bool × Canon)}
    (hkey : ∀ t ∈ kept ++ ts, ∀ u ∈ kept ++ ts, t.1 ≠ u.1 → t.2.key = u.2.key → f t.2 = f u.2) :
    weigh f (cancel kept ts).1 = weigh f kept + weigh f ts := by
  induction ts generalizing kept with
  | nil => exact (Int.add_zero _).symm
  | cons t ts ih =>
    rw [cancel]
    split
    · rename_i other rest hfind
      obtain ⟨hother, hperm⟩ := takeOpposite_eq_some hfind
      have hin : ∀ u ∈ (!t.1, other) :: rest, u ∈ kept ++ t :: ts :=
        fun u hu => List.mem_append_left _ (hperm.mem_iff.mpr hu)
      have hval := hkey (!t.1, other) (hin _ List.mem_cons_self) t (by simp) (by simp) hother
      have hrest : weigh f (cancel rest ts).1 = _ := ih fun u hu u' hu' => by
        have hsub : ∀ x ∈ rest ++ ts, x ∈ kept ++ t :: ts := by
          intro x hx
          rcases List.mem_append.mp hx with hx | hx
          · exact hin x (List.mem_cons_of_mem _ hx)
          · exact List.mem_append_right _ (List.mem_cons_of_mem _ hx)
        exact hkey u (hsub u hu) u' (hsub u' hu')
      -- the two terms that go away add up to zero
      simp only at hrest hval ⊢
      rw [hrest, weigh_perm hperm, weigh, weigh, hval]
      cases t.1 <;> simp only [signed, Bool.not_true, Bool.not_false, if_true, if_false,
        Bool.false_eq_true] <;> omega
    · have hmove : kept ++ [t] ++ ts = kept ++ t :: ts := by simp
      rw [ih (hmove ▸ hkey), weigh_append, weigh, weigh, weigh]
      omega

theorem weigh_left {ch : Chain}
    (hkey : ∀ t ∈ ch.terms, ∀ u ∈ ch.terms, t.1 ≠ u.1 → t.2.key = u.2.key → f t.2 = f u.2) :
    weigh f ch.left = weigh f ch.terms := by
  have hperm := Sorting.sort_perm termLe ch.terms
  have hcancel : weigh f (cancel [] (Sorting.sort termLe ch.terms)).1 = _ :=
    weigh_cancel fun t ht u hu => hkey t (hperm.mem_iff.mp ht) u (hperm.mem_iff.mp hu)
  rw [left, hcancel, weigh, Int.zero_add, weigh_perm hperm]

/-- The value of terms is what they weigh by the values of their sources. -/
theorem termsValue_eq_weigh (ts : List (Bool × Canon)) :
    termsValue env ts = weigh (·.sourceValue env) ts := by
  induction ts with
  | nil => rfl
  | cons t ts ih => rw [termsValue, weigh, ih]

theorem termsValue_append (ts us : List (Bool × Canon)) :
    termsValue env (ts ++ us) = termsValue env ts + termsValue env us := by
  simp only [termsValue_eq_weigh, weigh_append]

theorem termsValue_left {ch : Chain}
    (hkey : ∀ t ∈ ch.terms, ∀ u ∈ ch.terms, t.1 ≠ u.1 → t.2.key = u.2.key →
      t.2.sourceValue env = u.2.sourceValue env) :
    termsValue env ch.left = termsValue env ch.terms := by
  rw [termsValue_eq_weigh, termsValue_eq_weigh, weigh_left hkey]

end Chain

/-! ## Widths of additions -/

namespace Width
variable {ty : IntType} {exact : Nat} {sign : Bool}

theorem width_settle_of_overflow (h : (settle ty exact sign).overflow = true) :
    (settle ty exact sign).width = ty.bits := by
  rw [settle] at h ⊢
  split at h
  · cases h
  · rename_i hheld
    rw [if_neg hheld]

theorem width_settle_of_exact (h : (settle ty exact sign).overflow = false) :
    (settle ty exact sign).width = max 1 exact ∧ max 1 exact ≤ ty.bits := by
  rw [settle] at h ⊢
  split at h
  · rename_i hheld
    rw [if_pos hheld]
    exact ⟨rfl, width_le_of_holds hheld⟩
  · cases h

theorem width_le_unify (i j : Width) : i.width ≤ (unify i j).1 ∧ j.width ≤ (unify i j).1 := by
  simp only [unify]
  split <;> split <;> omega

end Width

namespace Expr

/-- An addition is settled at a width above those of its operands. -/
theorem info_of_isAdditive {e : Expr Nat} (h : e.isAdditive = true) :
    ∃ exact sign, e.info = Width.settle e.ty exact sign ∧
      ∀ a ∈ e.children, a.info.width < exact := by
  cases e with
  | var | const | cast | select => cases h
  | unary tag op a =>
    cases op with
    | not => cases h
    | neg => exact ⟨_, _, rfl, fun x hx => List.mem_singleton.mp hx ▸ Nat.lt_succ_self _⟩
  | binary tag op a b =>
    obtain ⟨ha, hb⟩ := Width.width_le_unify a.info b.info
    cases op with
    | add | sub =>
      refine ⟨_, _, rfl, fun x hx => ?_⟩
      simp only [children, List.mem_cons, List.not_mem_nil, or_false] at hx
      rcases hx with rfl | rfl <;> omega
    | mul | and | or | xor | shl | shr | lt | le | gt | ge | eq | ne => cases h

/-- An addition that overflows has the width of its type. -/
theorem width_of_overflow {e : Expr Nat} (h : e.isAdditive = true)
    (hover : e.info.overflow = true) : e.info.width = e.ty.bits := by
  obtain ⟨exact, sign, hinfo, -⟩ := info_of_isAdditive h
  rw [hinfo] at hover ⊢
  exact Width.width_settle_of_overflow hover

/-- An addition that does not overflow is wider than its operands. -/
theorem width_lt_of_exact {e a : Expr Nat} (h : e.isAdditive = true)
    (hover : e.info.overflow = false) (ha : a ∈ e.children) :
    a.info.width < e.info.width ∧ e.info.width ≤ e.ty.bits := by
  obtain ⟨exact, sign, hinfo, hchild⟩ := info_of_isAdditive h
  rw [hinfo] at hover ⊢
  obtain ⟨hwidth, hle⟩ := Width.width_settle_of_exact hover
  have hlt := hchild a ha
  omega

end Expr

namespace Chain
variable {env : Env} {root : IntType}

/-- The constants among the forms of the leaves of the chain are the values of the leaves. -/
def ConstantsHold (env : Env) (root : IntType) (e : Expr Nat) : Prop :=
  ∀ s ∈ leaves root e, ∀ v, (Canon.ofExpr s).constant? = some v → s.value env = v

section
variable {tag : Nat} {a b : Expr Nat}

theorem ConstantsHold.self {e : Expr Nat} (h : ConstantsHold env root e)
    (hleaf : leaves root e = [e]) :
    ∀ v, (Canon.ofExpr e).constant? = some v → e.value env = v :=
  h e (hleaf ▸ List.mem_singleton_self e)

theorem ConstantsHold.cast {ty : IntType} (h : ConstantsHold env root (.cast tag ty a))
    (hover : (Expr.cast tag ty a).info.overflow = false) (hadd : a.isAdditive = true) :
    ConstantsHold env root a := by
  rw [ConstantsHold, leaves_cast hover hadd] at h
  exact h

theorem ConstantsHold.neg (h : ConstantsHold env root (.unary tag .neg a))
    (hmerge : merges root (.unary tag .neg a) = true) : ConstantsHold env root a := by
  rw [ConstantsHold, leaves_neg hmerge] at h
  exact h

theorem ConstantsHold.binary {op : BinaryOp} (h : ConstantsHold env root (.binary tag op a b))
    (hop : DyadicOp.ofBinary? op = none) (hmerge : merges root (.binary tag op a b) = true) :
    ConstantsHold env root a ∧ ConstantsHold env root b := by
  rw [ConstantsHold, leaves_binary (isAdditive_of_ofBinary hop) hmerge] at h
  exact List.forall_mem_append.mp h

end

/-! ## Modulo the size of the type -/

theorem exactValue_of_ofBinary {tag : Nat} {op : BinaryOp} {a b : Expr Nat}
    (h : DyadicOp.ofBinary? op = none) : (Expr.binary tag op a b).exactValue env =
      a.value env + signed op.subtracts (b.value env) := by
  cases op <;> first | rfl | cases h

theorem value_leaf_modEq {e : Expr Nat} (hroot : root.Proper)
    (hconst : ∀ v, (Canon.ofExpr e).constant? = some v → e.value env = v) (negated : Bool) :
    (leaf negated (Canon.ofExpr e)).value env ≡ signed negated (e.value env)
      [ZMOD 2 ^ root.bits] := by
  rw [leaf]
  cases hc : (Canon.ofExpr e).constant? with
  | some v =>
    rw [hconst v hc]
    simp only [value, termsValue, Int.zero_add]
    exact IntType.wrap128_modEq hroot _
  | none =>
    simp only [value, termsValue, Int.add_zero, Canon.sourceValue_ofExpr]
    exact Int.ModEq.refl _

theorem value_join_modEq {number : Nat} {a b : Chain} {va vb : Int} (hroot : root.Proper)
    (ha : a.value env ≡ va [ZMOD 2 ^ root.bits]) (hb : b.value env ≡ vb [ZMOD 2 ^ root.bits]) :
    (join number a b).value env ≡ va + vb [ZMOD 2 ^ root.bits] := by
  have hsum : (join number a b).value env ≡ a.value env + b.value env [ZMOD 2 ^ root.bits] := by
    simp only [value, join, termsValue_append]
    calc termsValue env a.terms + termsValue env b.terms + wrap128 (a.constant + b.constant)
        ≡ termsValue env a.terms + termsValue env b.terms + (a.constant + b.constant)
          [ZMOD 2 ^ root.bits] := (IntType.wrap128_modEq hroot _).add_left _
      _ = termsValue env a.terms + a.constant + (termsValue env b.terms + b.constant) := by omega
  exact hsum.trans (ha.add hb)

/-- A nested addition that belongs to the chain has its exact value, modulo the size of the type. -/
theorem value_of_merges {e : Expr Nat} (hproper : e.Proper) (hadm : e.Admits env)
    (hmerge : merges root e = true) (hcompl : e.isComplement = false) :
    e.value env ≡ e.exactValue env [ZMOD 2 ^ root.bits] := by
  rw [merges, Bool.or_eq_true, Bool.not_eq_true', decide_eq_true_iff] at hmerge
  rcases hmerge with hover | rfl
  · rw [(Expr.info_sound hproper hadm).2 hover hcompl]
  · rw [Expr.value_eq_reduce hproper hadm]
    exact IntType.reduce_modEq hproper.ty _

/-- **A chain adds up to the value of its expression**, modulo the size of the type. -/
theorem value_modEq (hroot : root.Proper) (negated : Bool) {e : Expr Nat} (hproper : e.Proper)
    (hadm : e.Admits env) (hconst : ConstantsHold env root e) :
    (Chain.ofExpr root negated e).value env ≡ signed negated (e.value env)
      [ZMOD 2 ^ root.bits] := by
  revert hproper hadm hconst
  refine gather_induct root (P := fun negated e ch => e.Proper → e.Admits env →
    ConstantsHold env root e → ch.value env ≡ signed negated (e.value env) [ZMOD 2 ^ root.bits])
    ?_ ?_ ?_ ?_ negated e
  · intro negated e _ hleaf _ _ hconst
    exact value_leaf_modEq hroot (hconst.self hleaf) negated
  · intro negated tag ty a hover hadd ih hproper hadm hconst
    rw [(Expr.info_sound hproper hadm).2 hover rfl]
    exact ih hproper.2 hadm.2 (hconst.cast hover hadd)
  · intro negated tag a hmerge ih hproper hadm hconst
    refine (ih hproper hadm (hconst.neg hmerge)).trans ?_
    have hexact := value_of_merges hproper hadm hmerge rfl
    refine Int.ModEq.trans ?_ (signed_modEq negated hexact).symm
    rw [signed_not]
    exact Int.ModEq.refl _
  · intro negated tag op a b hop hmerge iha ihb hproper hadm hconst
    obtain ⟨hconsta, hconstb⟩ := hconst.binary hop hmerge
    have ha := iha hproper.1 hadm.1 hconsta
    have hb := ihb hproper.2 hadm.2 hconstb
    refine (value_join_modEq hroot ha hb).trans ?_
    have hexact := value_of_merges hproper hadm hmerge rfl
    refine Int.ModEq.trans ?_ (signed_modEq negated hexact).symm
    rw [signed_xor, ← signed_add, exactValue_of_ofBinary hop]

/-! ## Without overflow -/

/-- The chain adds up to the number exactly, and its constant has at most `w` bits. -/
structure Exactly (env : Env) (ch : Chain) (w : Nat) (v : Int) : Prop where
  value_eq : ch.value env = v
  low : -(2 ^ w : Int) ≤ ch.constant
  high : ch.constant ≤ 2 ^ w

theorem exactly_leaf {e : Expr Nat} (hproper : e.Proper) (hadm : e.Admits env)
    (hconst : ∀ v, (Canon.ofExpr e).constant? = some v → e.value env = v) (negated : Bool) :
    Exactly env (leaf negated (Canon.ofExpr e)) e.info.width (signed negated (e.value env)) := by
  obtain ⟨hpos, hrange, hheld⟩ := (Expr.info_sound hproper hadm).1
  have hwidth : e.info.width ≤ 64 := Nat.le_trans (Width.width_le_of_holds hheld) hproper.ty.2
  have hsmall : (2 : Int) ^ e.info.width ≤ 2 ^ 64 := two_pow_le hwidth
  have hzero : (0 : Int) < 2 ^ e.info.width := Int.pow_pos (by decide)
  rw [leaf]
  cases hc : (Canon.ofExpr e).constant? with
  | none =>
    refine ⟨?_, by simp only; omega, by simp only; omega⟩
    simp only [value, termsValue, Int.add_zero, Canon.sourceValue_ofExpr]
  | some v =>
    obtain rfl := hconst v hc
    obtain ⟨hlow, hhigh⟩ : -(2 ^ e.info.width : Int) ≤ signed negated (e.value env) ∧
        signed negated (e.value env) ≤ 2 ^ e.info.width := by
      have habs := hrange.magnitude hpos
      rw [signed]
      split <;> omega
    have hkeep : wrap128 (signed negated (e.value env)) = signed negated (e.value env) :=
      wrap128_eq_self (by omega) (by omega)
    rw [signed] at hkeep
    simp only [hkeep]
    exact ⟨Int.zero_add _, hlow, hhigh⟩

theorem Exactly.pass {number w w' : Nat} {ch : Chain} {v : Int} (h : Exactly env ch w v)
    (hle : w ≤ w') : Exactly env (pass number ch) w' v := by
  have hpow : (2 : Int) ^ w ≤ 2 ^ w' := two_pow_le hle
  obtain ⟨hvalue, hlow, hhigh⟩ := h
  exact ⟨hvalue, Int.le_trans (Int.neg_le_neg hpow) hlow, Int.le_trans hhigh hpow⟩

theorem Exactly.join {number wa wb w : Nat} {a b : Chain} {va vb : Int}
    (ha : Exactly env a wa va) (hb : Exactly env b wb vb) (hwa : wa < w) (hwb : wb < w)
    (hw : w ≤ 64) : Exactly env (join number a b) w (va + vb) := by
  have hpa : (2 : Int) ^ wa ≤ 2 ^ (w - 1) := two_pow_le (by omega)
  have hpb : (2 : Int) ^ wb ≤ 2 ^ (w - 1) := two_pow_le (by omega)
  have hpw : (2 : Int) ^ w = 2 * 2 ^ (w - 1) := two_pow_pred (by omega)
  have hsmall : (2 : Int) ^ w ≤ 2 ^ 64 := two_pow_le hw
  obtain ⟨hva, hla, hha⟩ := ha
  obtain ⟨hvb, hlb, hhb⟩ := hb
  have hkeep : wrap128 (a.constant + b.constant) = a.constant + b.constant :=
    wrap128_eq_self (by omega) (by omega)
  refine ⟨?_, ?_, ?_⟩ <;> simp only [value, Chain.join, hkeep]
  · rw [termsValue_append, ← hva, ← hvb, value, value]
    omega
  · omega
  · omega

/-- The operands of a chain are narrower than its type, or form an addition without overflow. -/
def Narrow (root : IntType) (e : Expr Nat) : Prop :=
  e.info.width < root.bits ∨
    e.isAdditive = true ∧ e.info.overflow = false ∧ e.info.width ≤ root.bits

/-- A narrow addition that belongs to the chain has its exact value and narrower operands. -/
theorem Narrow.of_merges {e : Expr Nat} (h : Narrow root e) (hadd : e.isAdditive = true)
    (hmerge : merges root e = true) :
    e.info.overflow = false ∧
      ∀ a ∈ e.children, a.info.width < e.info.width ∧ Narrow root a := by
  -- an addition of the chain's own type that overflows is as wide as that type
  have hover : e.info.overflow = false := by
    rcases h with hlt | ⟨-, hover, -⟩
    · rw [merges, Bool.or_eq_true, Bool.not_eq_true', decide_eq_true_iff] at hmerge
      rcases hmerge with hover | rfl
      · exact hover
      · by_contra hne
        rw [Expr.width_of_overflow hadd (by simpa using hne)] at hlt
        exact Nat.lt_irrefl _ hlt
    · exact hover
  refine ⟨hover, fun a ha => ?_⟩
  have hlt := (Expr.width_lt_of_exact hadd hover ha).1
  refine ⟨hlt, .inl ?_⟩
  rcases h with h | ⟨-, -, h⟩ <;> omega

/-- **A chain adds up to the value of its expression exactly**, if the expression is narrow. -/
theorem value_eq (negated : Bool) {e : Expr Nat} (hproper : e.Proper) (hadm : e.Admits env)
    (hconst : ConstantsHold env root e) (hnarrow : Narrow root e) :
    Exactly env (Chain.ofExpr root negated e) e.info.width (signed negated (e.value env)) := by
  revert hproper hadm hconst hnarrow
  refine gather_induct root (P := fun negated e ch => e.Proper → e.Admits env →
    ConstantsHold env root e → Narrow root e →
    Exactly env ch e.info.width (signed negated (e.value env))) ?_ ?_ ?_ ?_ negated e
  · intro negated e _ hleaf hproper hadm hconst _
    exact exactly_leaf hproper hadm (hconst.self hleaf) negated
  · intro negated tag ty a hover hadd ih hproper hadm hconst hnarrow
    have hwidth : (Expr.cast tag ty a).info.width = a.info.width := by
      simp only [Expr.info, Width.cast] at hover ⊢
      split at hover
      · rename_i hheld
        rw [if_pos hheld]
      · cases hover
    have hlt : a.info.width < root.bits := by
      rcases hnarrow with h | ⟨hadd, -⟩
      · omega
      · cases hadd
    rw [(Expr.info_sound hproper hadm).2 hover rfl, hwidth]
    exact (ih hproper.2 hadm.2 (hconst.cast hover hadd) (.inl hlt)).pass (Nat.le_refl _)
  · intro negated tag a hmerge ih hproper hadm hconst hnarrow
    obtain ⟨hover, hchild⟩ := hnarrow.of_merges rfl hmerge
    obtain ⟨hlt, hna⟩ := hchild a (by simp [Expr.children])
    have ha := ih hproper hadm (hconst.neg hmerge) hna
    have hvalue : signed negated ((Expr.unary tag .neg a).value env) =
        signed (!negated) (a.value env) := by
      rw [(Expr.info_sound hproper hadm).2 hover rfl]
      cases negated <;> simp [signed, Expr.exactValue, UnaryOp.apply]
    rw [hvalue]
    exact ha.pass (Nat.le_of_lt hlt)
  · intro negated tag op a b hop hmerge iha ihb hproper hadm hconst hnarrow
    obtain ⟨hover, hchild⟩ := hnarrow.of_merges (isAdditive_of_ofBinary hop) hmerge
    obtain ⟨hlta, hna⟩ := hchild a (by simp [Expr.children])
    obtain ⟨hltb, hnb⟩ := hchild b (by simp [Expr.children])
    obtain ⟨hconsta, hconstb⟩ := hconst.binary hop hmerge
    have ha := iha hproper.1 hadm.1 hconsta hna
    have hb := ihb hproper.2 hadm.2 hconstb hnb
    have hheld := (Expr.info_sound hproper hadm).1.held
    have hwidth := Nat.le_trans (Width.width_le_of_holds hheld) hproper.ty.2
    rw [(Expr.info_sound hproper hadm).2 hover rfl, exactValue_of_ofBinary hop, signed_add,
      ← signed_xor]
    exact ha.join hb hlta hltb hwidth

theorem value_of_exact {e : Expr Nat} (hproper : e.Proper) (hadm : e.Admits env)
    (hconst : ConstantsHold env e.ty e) (hadd : e.isAdditive = true)
    (hover : e.info.overflow = false) : (Chain.ofExpr e.ty false e).value env = e.value env := by
  have hheld := (Expr.info_sound hproper hadm).1.held
  have hnarrow : Narrow e.ty e := .inr ⟨hadd, hover, Width.width_le_of_holds hheld⟩
  exact (value_eq false hproper hadm hconst hnarrow).value_eq

/-! ## Sums -/

/-- Opposite terms of the chain of a sum that have equal keys have equal values. -/
def KeysHold (env : Env) (e : Expr Nat) : Prop :=
  ∀ t ∈ (ofSum e).terms, ∀ u ∈ (ofSum e).terms, t.1 ≠ u.1 → t.2.key = u.2.key →
    t.2.sourceValue env = u.2.sourceValue env

/-- The value of what is left of a sum when opposite terms have cancelled. -/
def sumValue (env : Env) (e : Expr Nat) : Int :=
  termsValue env (ofSum e).left + (ofSum e).constantIn e

theorem ofSum_eq {e : Expr Nat} (hadd : e.isAdditive = true) :
    ofSum e = Chain.ofExpr e.ty false e := by
  have hmerge := merges_self e
  cases e with
  | var | const | cast | select => cases hadd
  | unary tag op a =>
    cases op with
    | not => cases hadd
    | neg =>
      rw [Chain.ofExpr, if_pos hmerge]
      rfl
  | binary tag op a b =>
    have hop : DyadicOp.ofBinary? op = none := by cases op <;> first | rfl | cases hadd
    rw [Chain.ofExpr, hop]
    simp only [hmerge, if_true, Bool.false_bne]
    rfl

theorem constantIn_modEq {e : Expr Nat} (hproper : e.ty.Proper) (ch : Chain) :
    ch.constantIn e ≡ ch.constant [ZMOD 2 ^ e.ty.bits] := by
  rw [constantIn]
  split
  · exact IntType.reduce_modEq hproper _
  · exact Int.ModEq.refl _

/-- **A sum has the value of its expression**, once reduced into the type. -/
theorem reduce_sumValue {e : Expr Nat} (hproper : e.Proper) (hadm : e.Admits env)
    (hconst : ConstantsHold env e.ty e) (hadd : e.isAdditive = true) (hkeys : KeysHold env e) :
    e.ty.reduce (sumValue env e) = e.value env := by
  have hchain := value_modEq hproper.ty false hproper hadm hconst
  rw [← ofSum_eq hadd] at hchain
  have hconstant := constantIn_modEq hproper.ty (ofSum e)
  have hsum : sumValue env e ≡ e.value env [ZMOD 2 ^ e.ty.bits] := by
    rw [sumValue, termsValue_left hkeys]
    exact (hconstant.add_left _).trans hchain
  rw [IntType.reduce_congr hproper.ty hsum]
  exact IntType.reduce_eq_self hproper.ty (Expr.has_value hproper hadm)

/-- **A sum without overflow has the value of its expression.** -/
theorem sumValue_eq {e : Expr Nat} (hproper : e.Proper) (hadm : e.Admits env)
    (hconst : ConstantsHold env e.ty e) (hadd : e.isAdditive = true) (hkeys : KeysHold env e)
    (hover : e.info.overflow = false) : sumValue env e = e.value env := by
  have hchain := value_of_exact hproper hadm hconst hadd hover
  rw [← ofSum_eq hadd] at hchain
  rw [sumValue, termsValue_left hkeys, constantIn, hover]
  exact hchain

end Chain

namespace ExprTree

/-- **Flattening is sound where types mix.** Let the leaves of an addition that fold to constants
have them as their values. Then the canonical form of the addition is made from its chain, whose
terms are the forms of the other leaves in order, and the values of the terms, with their signs, and
the constant add up to the value of the addition: once reduced into its type, and as they stand if
the addition does not overflow. -/
theorem value_of_gathered {env : Env} {t : ExprTree} (h : t.Origin env) {e : Expr Nat}
    (he : e ∈ t.nodes) (hadd : e.isAdditive = true) (hconst : Chain.ConstantsHold env e.ty e) :
    let chain := Chain.ofExpr e.ty false e
    Canon.ofExpr e = chain.toCanon e ∧
      chain.terms.map Prod.snd =
        ((Chain.leaves e.ty e).map Canon.ofExpr).filter (·.constant?.isNone) ∧
      e.value env = e.ty.reduce (Chain.termsValue env chain.terms + chain.constant) ∧
      (e.info.overflow = false →
        e.value env = Chain.termsValue env chain.terms + chain.constant) := by
  have hproper := h.proper e he
  have hadm := h.admits e he
  refine ⟨?_, Chain.terms_ofExpr e.ty false e, ?_, fun hover => ?_⟩
  · rw [← Chain.ofSum_eq hadd]
    exact Chain.toCanon_ofSum hadd
  · have hsum := Chain.value_modEq hproper.ty false hproper hadm hconst
    calc e.value env = e.ty.reduce (e.value env) :=
          (IntType.reduce_eq_self hproper.ty (Expr.has_value hproper hadm)).symm
      _ = e.ty.reduce ((Chain.ofExpr e.ty false e).value env) :=
          (IntType.reduce_congr hproper.ty hsum).symm
  · exact (Chain.value_of_exact hproper hadm hconst hadd hover).symm

/-- A small number for `i`, and the greatest of 32 bits for any other variable. -/
def mixedValues : Env := fun name => if name = "i" then -128 else 2 ^ 32 - 1

/-- A cast without loss is gone through, and a sum that wraps in 32 bits stays a term of the one
that wraps in 64. -/
theorem value_of_gathered_mixed :
    ∃ t, ofText (.ofList [("w", .u64), ("i", .i8), ("x", .u32), ("y", .u32)])
        "w + (int64_t)(i - 3) - (x + y) - 2" = .ok t ∧
      (Chain.ofExpr t.root.ty false t.root).terms.map (fun s => (s.1, s.2.key)) =
        [(false, "v:w"), (false, "v:i"), (true, "(sum +v:x +v:y ~0)")] ∧
      t.root.info.overflow = true ∧ t.root.value mixedValues = 2 ^ 64 - 132 ∧
      t.root.value mixedValues = t.root.ty.reduce (2 ^ 32 - 1 + -128 - (2 ^ 32 - 2) + -5) := by
  have hrun : (ofText (.ofList [("w", .u64), ("i", .i8), ("x", .u32), ("y", .u32)])
      "w + (int64_t)(i - 3) - (x + y) - 2").toOption.any (fun t =>
        t.nodes.contains t.root && t.root.isAdditive &&
          (Chain.leaves t.root.ty t.root).all (fun s =>
            (Canon.ofExpr s).constant?.all (s.value mixedValues = ·)) &&
          (Chain.ofExpr t.root.ty false t.root).terms.map (fun s => (s.1, s.2.key)) =
            [(false, "v:w"), (false, "v:i"), (true, "(sum +v:x +v:y ~0)")] &&
          t.root.info.overflow && t.root.value mixedValues = 2 ^ 64 - 132 &&
          Chain.termsValue mixedValues (Chain.ofExpr t.root.ty false t.root).terms =
            2 ^ 32 - 1 + -128 - (2 ^ 32 - 2) &&
          (Chain.ofExpr t.root.ty false t.root).constant = -5) = true := by
    decide +kernel
  obtain ⟨t, htext, hcase⟩ := Option.any_eq_true _ _ |>.mp hrun
  simp only [Bool.and_eq_true, List.contains_iff_mem, List.all_eq_true, decide_eq_true_eq,
    Option.all_eq_true] at hcase
  obtain ⟨⟨⟨⟨⟨⟨⟨hroot, hadd⟩, hconst⟩, hterms⟩, hover⟩, hvalue⟩, hsum⟩, hconstant⟩ := hcase
  have htext := eq_ok_of_toOption htext
  refine ⟨t, htext, hterms, hover, hvalue, ?_⟩
  have horigin : t.Origin mixedValues := by
    refine .read _ _ (fun name ty hty => ?_) htext
    simp only [NameMap.ofList, List.foldl_cons, List.foldl_nil, NameMap.get?_insert,
      NameMap.get?_empty] at hty
    split_ifs at hty
    all_goals
      obtain rfl := Option.some.inj hty
      obtain rfl := ‹name = _›
      decide
  rw [← hsum, ← hconstant]
  exact (value_of_gathered horigin hroot hadd hconst).2.2.1

end ExprTree
end CustomIsa
