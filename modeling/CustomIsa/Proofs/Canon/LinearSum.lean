import CustomIsa.Proofs.Canon.Balance
import CustomIsa.Proofs.Canon.KeySound
import CustomIsa.Proofs.Expr.Linear
import CustomIsa.Proofs.Expr.Numbered
/-! # Keys of linear expressions

The canonical form of a linear expression with 32-bit variables consists of its coefficients and its
constant modulo `2 ^ 32`, and of nothing else: the balance of a variable in the chain is its
coefficient (`Chain.gathers_ofExpr`), literals without a variable beside them become a constant
(`Chain.folds_of_closed`), and the terms that are left make up the form together with the reduced
constant (`Canon.linearForm_ofExpr`). The keys of two linear expressions are therefore equal exactly
if the expressions are equal as linear forms (`ExprTree.key_eq_iff_linear`). -/
namespace CustomIsa

/-! ## Shapes and widths -/

namespace Expr
variable {ty : IntType} {e : Expr Nat}

/-- A linear expression is an addition, a variable or a literal. -/
theorem Linear.shape (h : e.Linear ty) :
    e.isAdditive = true ∨ (∃ tag name, e = .var tag name ty) ∨
      ∃ tag v, e = .const tag v .i32 ∧ IntType.i32.Has v := by
  cases e with
  | var tag name vty =>
    obtain rfl : vty = ty := h
    exact .inr (.inl ⟨tag, name, rfl⟩)
  | const tag v cty =>
    obtain ⟨rfl, hlow, hhigh⟩ := h
    exact .inr (.inr ⟨tag, v, rfl, Int.le_trans (by decide) hlow, hhigh⟩)
  | cast | select => cases h
  | unary tag op a =>
    obtain ⟨rfl, -⟩ := h
    exact .inl rfl
  | binary tag op a b => rcases h.1 with rfl | rfl <;> exact .inl rfl

/-- A 32-bit addition with an operand of full width overflows, and has full width itself. -/
theorem wide_of_child {a : Expr Nat} (hbits : e.ty.bits = 32) (hadd : e.isAdditive = true)
    (ha : a ∈ e.children) (hwide : 32 ≤ a.info.width) :
    32 ≤ e.info.width ∧ e.info.overflow = true := by
  have hover : e.info.overflow = true := by
    by_contra hne
    have hlt := width_lt_of_exact hadd (Bool.eq_false_iff.mpr hne) ha
    omega
  rw [width_of_overflow hadd hover, hbits]
  exact ⟨Nat.le_refl _, hover⟩

/-- A linear expression with a variable has full width, and its additions overflow. -/
theorem Linear.wide (hbits : ty.bits = 32) (h : e.Linear ty) (hopen : ¬e.Closed) :
    32 ≤ e.info.width ∧ (e.isAdditive = true → e.info.overflow = true) := by
  induction e with
  | var => exact ⟨Nat.le_of_eq (h.bits_ty hbits).symm, fun hadd => nomatch hadd⟩
  | const => exact absurd trivial hopen
  | cast | select => cases h
  | unary tag op a ih =>
    have hwide := (ih h.2 hopen).1
    have hty := h.bits_ty hbits
    obtain ⟨rfl, -⟩ := h
    obtain ⟨hwidth, hover⟩ := wide_of_child hty rfl (by simp [children]) hwide
    exact ⟨hwidth, fun _ => hover⟩
  | binary tag op a b iha ihb =>
    have hadd : (Expr.binary tag op a b).isAdditive = true := by
      rcases h.1 with rfl | rfl <;> rfl
    -- at least one of the operands has a variable
    obtain ⟨x, hx, hwide⟩ : ∃ x ∈ (Expr.binary tag op a b).children, 32 ≤ x.info.width := by
      by_cases hclosed : a.Closed
      · exact ⟨b, by simp [children], (ihb h.2.2 fun hb => hopen ⟨hclosed, hb⟩).1⟩
      · exact ⟨a, by simp [children], (iha h.2.1 hclosed).1⟩
    obtain ⟨hwidth, hover⟩ := wide_of_child (h.bits_ty hbits) hadd hx hwide
    exact ⟨hwidth, fun _ => hover⟩

end Expr

/-! ## Chains -/

namespace Chain
variable {ty root : IntType} {negated : Bool} {e : Expr Nat}

/-- The key of a variable. -/
def keyOf (name : String) : String := "v:" ++ name

theorem keyOf_inj {name name' : String} : keyOf name = keyOf name' ↔ name = name' :=
  String.append_right_inj _

/-- The form is a variable. -/
def IsVar (c : Canon) : Prop := ∃ o name, c = .var o name

/-- The chain is that of a linear expression or its negation: its terms are variables, their
balances are the coefficients, and its constant is the constant part modulo `2 ^ 32`. -/
structure Gathers (negated : Bool) (e : Expr Nat) (ch : Chain) : Prop where
  vars : ∀ t ∈ ch.terms, IsVar t.2
  balance : ∀ name, balance (keyOf name) ch.terms = signed negated (e.coefficient name)
  constant : ch.constant ≡ signed negated e.constantPart [ZMOD 2 ^ 32]
  closed : e.Closed → ch.terms = []

/-- The form of the expression is a constant, which is the constant part modulo `2 ^ 32`. -/
def Folds (e : Expr Nat) : Prop :=
  ∃ o v, Canon.ofExpr e = .const o v ∧ v ≡ e.constantPart [ZMOD 2 ^ 32]

theorem gathers_var (negated : Bool) (tag : Nat) (name : String) (ty : IntType) :
    Gathers negated (.var tag name ty) (leaf negated (Canon.ofExpr (.var tag name ty))) := by
  rw [Canon.ofExpr]
  refine ⟨fun t ht => ?_, fun other => ?_, ?_, False.elim⟩
  · rw [(mem_leaf ht).1]
    exact ⟨_, _, rfl⟩
  · show signed negated (if keyOf name = keyOf other then 1 else 0) + 0 = _
    rw [Int.add_zero, Expr.coefficient]
    simp only [keyOf_inj]
  · cases negated <;> exact Int.ModEq.refl _

theorem Folds.gathers (h : Folds e) (hclosed : e.Closed) :
    Gathers negated e (leaf negated (Canon.ofExpr e)) := by
  obtain ⟨o, v, hform, hv⟩ := h
  rw [hform]
  refine ⟨fun t ht => (nomatch ht), fun name => ?_, ?_, fun _ => rfl⟩
  · rw [Expr.coefficient_of_closed hclosed]
    cases negated <;> rfl
  · exact (IntType.wrap128_modEq IntType.proper_i32 _).trans (signed_modEq negated hv)

theorem Gathers.neg {tag number : Nat} {ch : Chain} (h : Gathers (!negated) e ch) :
    Gathers negated (.unary tag .neg e) (pass number ch) := by
  refine ⟨h.vars, fun name => ?_, ?_, h.closed⟩
  · rw [Expr.coefficient, ← signed_not]
    exact h.balance name
  · rw [Expr.constantPart, ← signed_not]
    exact h.constant

theorem Gathers.join {tag number : Nat} {op : BinaryOp} {a b : Expr Nat} {cha chb : Chain}
    (hop : op = .add ∨ op = .sub) (ha : Gathers negated a cha)
    (hb : Gathers (negated ^^ op.subtracts) b chb) :
    Gathers negated (.binary tag op a b) (join number cha chb) := by
  have hcoefficient : ∀ name, (Expr.binary tag op a b).coefficient name =
      a.coefficient name + signed op.subtracts (b.coefficient name) := by
    intro name
    rcases hop with rfl | rfl <;> rfl
  have hconstant : (Expr.binary tag op a b).constantPart =
      a.constantPart + signed op.subtracts b.constantPart := by
    rcases hop with rfl | rfl <;> rfl
  refine ⟨fun t ht => ?_, fun name => ?_, ?_, fun hclosed => ?_⟩
  · rcases List.mem_append.mp ht with ht | ht
    · exact ha.vars t ht
    · exact hb.vars t ht
  · rw [hcoefficient, signed_add, ← signed_xor, ← ha.balance, ← hb.balance]
    exact weigh_append _ _
  · rw [hconstant, signed_add, ← signed_xor]
    exact (IntType.wrap128_modEq IntType.proper_i32 _).trans (ha.constant.add hb.constant)
  · rw [Chain.join, ha.closed hclosed.1, hb.closed hclosed.2]
    rfl

/-- **The chain of a linear expression gathers its coefficients and its constant**, given that the
smaller expressions without variables fold. A part with a variable belongs to the chain, since it
computes in the type of the chain. -/
theorem gathers_of_folds {size : Nat} (hbits : ty.bits = 32)
    (hfolds : ∀ s : Expr Nat, s.size < size → s.Linear ty → s.Closed → Folds s)
    (negated : Bool) (hsize : e.size < size) (h : e.Linear ty) (hroot : root = ty ∨ e.Closed) :
    Gathers negated e (Chain.ofExpr root negated e) := by
  revert hsize h hroot
  refine gather_induct root (P := fun negated e ch => e.size < size → e.Linear ty →
    (root = ty ∨ e.Closed) → Gathers negated e ch) ?_ ?_ ?_ ?_ negated e
  · intro negated e hleaf _ hsize h hroot
    by_cases hclosed : e.Closed
    · exact (hfolds e hsize h hclosed).gathers hclosed
    · obtain rfl : root = ty := hroot.resolve_right hclosed
      have hmerge : merges root e = true := by simp [merges, h.ty_of_open hbits hclosed]
      rcases h.shape with hadd | ⟨tag, name, rfl⟩ | ⟨tag, v, rfl, -⟩
      · exact absurd ⟨hadd, hmerge⟩ hleaf
      · exact gathers_var negated tag name root
      · exact absurd trivial hclosed
  · intro negated tag cty a _ _ _ _ h
    cases h
  · intro negated tag a _ ih hsize h hroot
    refine (ih ?_ h.2 hroot).neg
    exact Nat.lt_trans (Expr.size_of_child (by simp [Expr.children])) hsize
  · intro negated tag op a b _ _ iha ihb hsize h hroot
    have ha : a.size < size := Nat.lt_trans (Expr.size_of_child (by simp [Expr.children])) hsize
    have hb : b.size < size := Nat.lt_trans (Expr.size_of_child (by simp [Expr.children])) hsize
    exact .join h.1 (iha ha h.2.1 (hroot.imp_right (·.1))) (ihb hb h.2.2 (hroot.imp_right (·.2)))

theorem folds_of_gathers (hadd : e.isAdditive = true) (hty : e.ty = .i32) (hclosed : e.Closed)
    (h : Gathers false e (ofSum e)) : Folds e := by
  have hproper : e.ty.Proper := hty ▸ IntType.proper_i32
  have hconstant := constantIn_modEq hproper (ofSum e)
  have hremains := remains_ofSum hadd
  rw [left_eq_nil (h.closed hclosed)] at hremains
  generalize hc : Canon.ofExpr e = c at hremains
  cases hremains with
  | const absorbed =>
    have hmod := (IntType.reduce_modEq hproper _).trans hconstant
    rw [hty] at hmod
    exact ⟨_, _, hc, hty ▸ hmod.trans h.constant⟩
  | term _ _ hterms => cases hterms
  | sum _ _ hne => exact absurd rfl hne

/-- **A linear expression without variables becomes a constant**, even if parts of it overflow. -/
theorem folds_of_closed (hbits : ty.bits = 32) (h : e.Linear ty) (hclosed : e.Closed) :
    Folds e := by
  induction hn : e.size using Nat.strongRecOn generalizing e with
  | ind n ih =>
    subst hn
    have hty := h.ty_of_closed hbits hclosed
    have hchild : ∀ (root : IntType) (negated : Bool) (a : Expr Nat), a ∈ e.children →
        a.Linear ty → a.Closed → Gathers negated a (Chain.ofExpr root negated a) :=
      fun root negated a ha hlin hca =>
        gathers_of_folds hbits (fun s hs hlin hcs => ih s.size hs hlin hcs rfl) negated
          (Expr.size_of_child ha) hlin (.inr hca)
    cases e with
    | var => cases hclosed
    | const tag v cty => exact ⟨_, v, rfl, Int.ModEq.refl _⟩
    | cast | select => cases h
    | unary tag op a =>
      obtain ⟨rfl, ha⟩ := h
      refine folds_of_gathers rfl hty hclosed ?_
      exact (hchild _ _ a (by simp [Expr.children]) ha hclosed).neg
    | binary tag op a b =>
      obtain ⟨hop, ha, hb⟩ := h
      refine folds_of_gathers (by rcases hop with rfl | rfl <;> rfl) hty hclosed ?_
      refine .join hop (hchild _ _ a (by simp [Expr.children]) ha hclosed.1) ?_
      rw [Bool.false_xor]
      exact hchild _ _ b (by simp [Expr.children]) hb hclosed.2

theorem gathers_ofExpr (hbits : ty.bits = 32) (h : e.Linear ty) :
    Gathers negated e (Chain.ofExpr ty negated e) :=
  gathers_of_folds hbits (fun _ _ hlin hclosed => folds_of_closed hbits hlin hclosed) negated
    (Nat.lt_succ_self _) h (.inl rfl)

end Chain

/-! ## Normal forms -/

namespace Canon
open Chain
variable {ty : IntType} {e : Expr Nat} {ts us : List (Bool × Canon)} {k l : Int} {c d : Canon}

/-- The form that consists of the given terms and constant: a constant, a term, or a sum. -/
inductive Normal : List (Bool × Canon) → Int → Canon → Prop where
  | const (o : Origin) (k : Int) : Normal [] k (.const o k)
  | term (o : Origin) (c : Canon) : Normal [(false, c)] 0 (c.withOrigin o)
  | sum (o : Origin) (terms : List (Bool × Canon)) (k : Int) (adds : List Nat) (hne : terms ≠ [])
    (hmore : ∀ c, terms = [(false, c)] → k ≠ 0) : Normal terms k (.sum o terms k adds)

theorem signature_eq_singleton {key : String} (h : signature ts = [(false, key)]) :
    ∃ c, ts = [(false, c)] := by
  obtain ⟨t, ht, heq⟩ := List.map_eq_singleton_iff.mp h
  obtain ⟨negated, c⟩ := t
  obtain ⟨rfl, -⟩ := Prod.mk.inj heq
  exact ⟨c, ht⟩

/-- Forms of the same signed keys and the same constant have the same key. -/
theorem Normal.key_eq (hc : Normal ts k c) (hd : Normal us k d)
    (h : signature ts = signature us) : c.key = d.key := by
  cases hc with
  | const =>
    cases hd with
    | const => simp only [key]
    | term => cases h
    | sum _ _ _ _ hne => exact absurd (List.map_eq_nil_iff.mp h.symm) hne
  | term _ c =>
    cases hd with
    | term _ d =>
      rw [key_withOrigin, key_withOrigin]
      simpa [signature] using h
    | sum _ _ _ _ _ hmore =>
      obtain ⟨d, hd⟩ := signature_eq_singleton h.symm
      exact absurd rfl (hmore d hd)
    | const => cases h
  | sum _ _ _ _ hne hmore =>
    cases hd with
    | const => exact absurd (List.map_eq_nil_iff.mp h) hne
    | term =>
      obtain ⟨d, hd⟩ := signature_eq_singleton h
      exact absurd rfl (hmore d hd)
    | sum => rw [key, key, termKeys_eq, termKeys_eq, h]

/-- A form of variables tells its terms and its constant by its key. -/
theorem Normal.of_key_eq (hc : Normal ts k c) (hd : Normal us l d) (hts : ∀ t ∈ ts, IsVar t.2)
    (hus : ∀ t ∈ us, IsVar t.2) (hclear : c.Clear) (hclear' : d.Clear) (h : c.key = d.key) :
    signature ts = signature us ∧ k = l := by
  have halike := alike_of_key hclear hclear' h
  cases hc with
  | const =>
    cases hd with
    | const =>
      cases halike
      exact ⟨rfl, rfl⟩
    | term o d =>
      obtain ⟨o', name, rfl⟩ := hus _ List.mem_cons_self
      cases halike
    | sum => cases halike
  | term o c =>
    obtain ⟨o', name, rfl⟩ := hts _ List.mem_cons_self
    cases hd with
    | const => cases halike
    | term p d =>
      obtain ⟨p', other, rfl⟩ := hus _ List.mem_cons_self
      cases halike
      exact ⟨rfl, rfl⟩
    | sum => cases halike
  | sum =>
    cases hd with
    | const => cases halike
    | term p d =>
      obtain ⟨p', other, rfl⟩ := hus _ List.mem_cons_self
      cases halike
    | sum =>
      cases halike with
      | sum _ _ _ _ _ hts =>
        refine ⟨?_, rfl⟩
        rw [signature, signature, ← List.forall₂_eq_eq_eq, List.forall₂_map_left_iff,
          List.forall₂_map_right_iff]
        exact hts.imp fun t u htu => Prod.ext htu.1 htu.2

/-! ## Linear expressions -/

/-- The canonical form of a linear expression of type `ty` consists of the given terms and of the
reduced constant part. -/
structure LinearForm (ty : IntType) (e : Expr Nat) (terms : List (Bool × Canon)) : Prop where
  normal : Normal terms (ty.reduce e.constantPart) (ofExpr e)
  settled : Settled terms
  vars : ∀ t ∈ terms, IsVar t.2
  balance : ∀ name, balance (keyOf name) terms = e.coefficient name

theorem linearForm_of_isAdditive (hbits : ty.bits = 32) (h : e.Linear ty) (hty : e.ty = ty)
    (hadd : e.isAdditive = true) : LinearForm ty e (ofSum e).left := by
  have hgathers : Gathers false e (ofSum e) := by
    rw [ofSum_eq hadd, hty]
    exact gathers_ofExpr hbits h
  have hconst : ty.reduce (ofSum e).constant = ty.reduce e.constantPart := by
    refine IntType.reduce_congr (IntType.proper_of_bits hbits) ?_
    rw [hbits]
    exact hgathers.constant
  -- a sum with terms has a variable, and so it overflows
  have hconstantIn : (ofSum e).left ≠ [] →
      (ofSum e).constantIn e = ty.reduce e.constantPart := by
    intro hne
    have hopen : ¬e.Closed := fun hclosed => hne (left_eq_nil (hgathers.closed hclosed))
    rw [constantIn, (h.wide hbits hopen).2 hadd, if_pos rfl, hty, hconst]
  refine ⟨?_, settled_left _, fun t ht => hgathers.vars t (mem_left ht), fun name => ?_⟩
  · have hremains := remains_ofSum hadd
    generalize ofExpr e = c at hremains
    generalize (ofSum e).left = ts at hremains hconstantIn
    cases hremains with
    | const absorbed hterms =>
      have hproper : e.ty.Proper := hty ▸ IntType.proper_of_bits hbits
      rw [IntType.reduce_congr hproper (constantIn_modEq hproper (ofSum e)), hty, hconst, hterms]
      exact .const _ _
    | term c others hterms hk =>
      have hzero := hconstantIn (by rw [hterms]; simp)
      rw [← hzero, hk, hterms]
      exact .term _ c
    | sum o adds hne hmore =>
      rw [← hconstantIn hne]
      exact .sum o _ _ adds hne hmore
  · rw [balance_left]
    exact hgathers.balance name

/-- **The canonical form of a linear expression** holds its coefficients and its constant part. -/
theorem linearForm_ofExpr (hbits : ty.bits = 32) (h : e.Linear ty) (hty : e.ty = ty) :
    ∃ terms, LinearForm ty e terms := by
  rcases h.shape with hadd | ⟨tag, name, rfl⟩ | ⟨tag, v, rfl, hv⟩
  · exact ⟨_, linearForm_of_isAdditive hbits h hty hadd⟩
  · have hgathers := gathers_var false tag name ty
    refine ⟨[(false, ofExpr (.var tag name ty))], ?_, settled_singleton _, hgathers.vars,
      hgathers.balance⟩
    show Normal _ (ty.reduce 0) _
    rw [IntType.reduce_zero (IntType.proper_of_bits hbits)]
    exact .term (.ofExpr (.var tag name ty)) _
  · obtain rfl : IntType.i32 = ty := hty
    refine ⟨[], ?_, ⟨.nil, fun t ht => (nomatch ht)⟩, fun t ht => (nomatch ht), fun name => rfl⟩
    rw [Expr.constantPart, IntType.reduce_eq_self IntType.proper_i32 hv]
    exact .const _ v

/-- **Linear expressions of one type have the same key exactly if they are equal as linear forms**:
if every variable has the same coefficient in both, and their constant parts are congruent. -/
theorem key_eq_iff_of_linear {e e' : Expr Nat} (hbits : ty.bits = 32) (h : e.Linear ty)
    (h' : e'.Linear ty) (hty : e.ty = ty) (hty' : e'.ty = ty) (hnames : e.Obeys plainNames)
    (hnames' : e'.Obeys plainNames) :
    (ofExpr e).key = (ofExpr e').key ↔ (∀ name, e.coefficient name = e'.coefficient name) ∧
      e.constantPart ≡ e'.constantPart [ZMOD 2 ^ 32] := by
  obtain ⟨ts, hts⟩ := linearForm_ofExpr hbits h hty
  obtain ⟨us, hus⟩ := linearForm_ofExpr hbits h' hty'
  have hcoefficients : (∀ name, e.coefficient name = e'.coefficient name) ↔
      signature ts = signature us := by
    rw [hts.settled.signature_eq_iff hus.settled]
    constructor
    · intro heq key
      by_cases hkey : ∃ name, keyOf name = key
      · obtain ⟨name, rfl⟩ := hkey
        rw [hts.balance, hus.balance, heq]
      · -- only variables have a balance
        have hnone : ∀ {c : Canon}, IsVar c → c.key ≠ key := by
          rintro c ⟨o, name, rfl⟩ hname
          exact hkey ⟨name, hname⟩
        rw [balance_eq_zero fun t ht => hnone (hts.vars t ht),
          balance_eq_zero fun t ht => hnone (hus.vars t ht)]
    · intro heq name
      rw [← hts.balance, ← hus.balance, heq]
  have hconstants : e.constantPart ≡ e'.constantPart [ZMOD 2 ^ 32] ↔
      ty.reduce e.constantPart = ty.reduce e'.constantPart := by
    rw [IntType.reduce_eq_iff (IntType.proper_of_bits hbits), hbits]
  rw [hcoefficients, hconstants]
  constructor
  · exact hts.normal.of_key_eq hus.normal hts.vars hus.vars (clear_ofExpr hnames)
      (clear_ofExpr hnames')
  · intro heq
    have hnormal := hus.normal
    rw [← heq.2] at hnormal
    exact hts.normal.key_eq hnormal heq.1

end Canon

namespace ExprTree

/-- **The canonical key decides linear equality.** Let two texts be written with variables of type
`i32`, or with variables of type `u32`, with plain decimal literals below `2 ^ 31`, signs and
parentheses, and let both be read as expressions of that type. Their keys are equal exactly if every
variable has the same coefficient in both and their constant parts are congruent modulo `2 ^ 32`. -/
theorem key_eq_iff_linear {vars : Typing} {ty : IntType} (hty : ty = .i32 ∨ ty = .u32)
    {text text' : String} {t t' : ExprTree} (hwritten : WrittenLinear vars ty text)
    (hwritten' : WrittenLinear vars ty text') (h : ofText vars text = .ok t)
    (h' : ofText vars text' = .ok t') (hroot : t.root.ty = ty) (hroot' : t'.root.ty = ty) :
    (Canon.ofExpr t.root).key = (Canon.ofExpr t'.root).key ↔
      (∀ name, t.root.coefficient name = t'.root.coefficient name) ∧
        t.root.constantPart ≡ t'.root.constantPart [ZMOD 2 ^ 32] := by
  have hbits : ty.bits = 32 := by rcases hty with rfl | rfl <;> rfl
  have hnames : ∀ {text t}, ofText vars text = .ok t → t.root.Obeys Canon.plainNames := by
    intro text t h
    refine plainNames_ofText h _ ?_
    obtain ⟨e, -, rfl⟩ := map_eq_ok h
    exact (indexed_ofExpr e).root_mem
  exact Canon.key_eq_iff_of_linear hbits (linear_ofText hwritten h) (linear_ofText hwritten' h')
    hroot hroot' (hnames h) (hnames h')

/-- A difference that cancels, a negated sum, and literals that wrap around: both texts stand for
twice `a` and a constant, and their keys show that. -/
theorem key_eq_iff_linear_wrapping :
    ∃ t t', ofText (.ofList [("a", .u32), ("b", .u32)]) "a - (b - a) + (2147483647 + 1) - (5 - b)" =
        .ok t ∧
      ofText (.ofList [("a", .u32), ("b", .u32)]) "-(5 - a) - (+2147483647 - a) - 1" = .ok t' ∧
      (Canon.ofExpr t.root).key = "(sum +v:a +v:a ~2147483643)" ∧
      (Canon.ofExpr t'.root).key = "(sum +v:a +v:a ~2147483643)" ∧
      t.root.constantPart = 2147483643 ∧ t'.root.constantPart = -2147483653 ∧
      ∀ name, t.root.coefficient name = t'.root.coefficient name := by
  have hread : ∀ (text : String) (v : Int),
      (ofText (.ofList [("a", .u32), ("b", .u32)]) text).toOption.any (fun t =>
        t.root.ty = .u32 && (Canon.ofExpr t.root).key = "(sum +v:a +v:a ~2147483643)" &&
          t.root.constantPart = v) = true →
      ∃ t, ofText (.ofList [("a", .u32), ("b", .u32)]) text = .ok t ∧ t.root.ty = .u32 ∧
        (Canon.ofExpr t.root).key = "(sum +v:a +v:a ~2147483643)" ∧ t.root.constantPart = v := by
    intro text v hrun
    obtain ⟨t, htext, hcase⟩ := Option.any_eq_true _ _ |>.mp hrun
    simp only [Bool.and_eq_true, decide_eq_true_eq] at hcase
    exact ⟨t, eq_ok_of_toOption htext, hcase.1.1, hcase.1.2, hcase.2⟩
  obtain ⟨t, htext, hroot, hkey, hv⟩ :=
    hread "a - (b - a) + (2147483647 + 1) - (5 - b)" 2147483643 (by decide +kernel)
  obtain ⟨t', htext', hroot', hkey', hv'⟩ :=
    hread "-(5 - a) - (+2147483647 - a) - 1" (-2147483653) (by decide +kernel)
  have hequal := key_eq_iff_linear (.inr rfl) (by decide +kernel) (by decide +kernel) htext htext'
    hroot hroot'
  exact ⟨t, t', htext, htext', hkey, hkey', hv, hv', (hequal.mp (hkey.trans hkey'.symm)).1⟩

end ExprTree
end CustomIsa
