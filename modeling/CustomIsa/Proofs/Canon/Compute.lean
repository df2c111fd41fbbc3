import CustomIsa.Proofs.Canon.Faithful
/-! # What a canonical form computes

How the value of an expression comes about from the values of the expressions below it, once these
are known well enough (`Canon.Below`): constants among their forms are their values, the widths of
their forms bound them, and equal keys stand for equal values. There are five ways
(`Canon.Computes`), and one of them applies to every expression (`Canon.computes_of_below`). What is
shown of values by induction on expressions needs these five cases only. -/
namespace CustomIsa
open Bits

namespace Canon

/-- What is known of the expressions below an expression. -/
structure Below (env : Env) (m : Expr Nat) : Prop where
  constant : ∀ {s v}, s.Under m → (ofExpr s).constant? = some v → s.value env = v
  pos : ∀ {s}, s.Under m → 1 ≤ (ofExpr s).info.width
  range : ∀ {s}, s.Under m → Within (ofExpr s).info.width (ofExpr s).info.signed (s.value env)
  same : ∀ {s u}, s.Under m → u.Under m → (ofExpr s).key = (ofExpr u).key →
    s.value env = u.value env
  truth : ∀ {s o cmp x y}, s.Under m → ofExpr s = .dyadic o cmp x y →
    (∀ u v, cmp.apply u v = 0 ∨ cmp.apply u v = 1) →
    (s.value env ≠ 0 ↔ (ofExpr s).topValue env ≠ 0)

/-- Whether the topmost node is a truncation. -/
def isTruncation : Canon → Bool
  | .monadic _ (.trunc _) _ => true
  | _ => false

theorem isTruncation_wrap (c : Canon) (outer : Expr Nat) (others : List Nat) :
    (c.wrap outer others).isTruncation = c.isTruncation := by
  cases c with
  | monadic _ op => cases op <;> rfl
  | var | const | dyadic | select | sum => rfl

/-- How the value of an expression comes about from those below it: it is a constant, a truncation,
what a node of its own computes, the value of an expression into whose form it collapsed, or what is
left of a sum. -/
inductive Computes (env : Env) (m : Expr Nat) : Prop where
  | const (absorbed : List Nat) (v : Int) (form : ofExpr m = .const (.ofExpr m absorbed) v)
    (value : m.value env = v)
  | truncation (origin : (ofExpr m).origin = .ofExpr m) (lossy : (ofExpr m).lossy = m.info.overflow)
    (complement : m.isComplement = false) (top : (ofExpr m).topValue env = m.exactValue env)
    (overflow : m.info.overflow = true)
  | own (absorbed : List Nat) (origin : (ofExpr m).origin = .ofExpr m absorbed)
    (whole : (ofExpr m).isTruncation = false) (top : (ofExpr m).topValue env = m.exactValue env)
    (exact : (ofExpr m).lossy = false → m.value env = m.exactValue env)
  | collapsed (s : Expr Nat) (others : List Nat) (under : s.Under m)
    (form : ofExpr m = (ofExpr s).wrap m others) (value : m.value env = m.ty.reduce (s.value env))
    (varies : (ofExpr s).constant? = none ∨ m.value env = s.value env)
    (exact : m.info.overflow = false → m.value env = s.value env)
  | sum (o : Origin) (terms : List (Bool × Canon)) (k : Int) (adds : List Nat)
    (form : ofExpr m = .sum o terms k adds) (ty : o.ty = m.ty)
    (bounds : o.info.Bounds m.ty (m.value env))
    (value : m.value env = m.ty.reduce (Chain.termsValue env terms + k))
    (exact : o.info.overflow = false ∨ m.info.overflow = false →
      m.value env = Chain.termsValue env terms + k)

variable {env : Env} {m : Expr Nat}

/-! ## Masks and extrema -/

/-- A mask that keeps all bits changes no value. -/
theorem Below.land_of_keepsAll {a b : Expr Nat} (h : Below env m) (ha : a.Under m)
    (hb : b.Under m) (hmask : keepsAll (ofExpr a) (ofExpr b) = true) :
    (ofExpr a).constant? = none ∧ Int.land (a.value env) (b.value env) = a.value env := by
  rw [keepsAll] at hmask
  split at hmask
  · rename_i bits hbind
    obtain ⟨v, hv, hbits⟩ := Option.bind_eq_some_iff.mp hbind
    simp only [Bool.and_eq_true, decide_eq_true_eq, Bool.not_eq_true', Option.isNone_iff_eq_none]
      at hmask
    obtain ⟨⟨hle, hsigned⟩, hnone⟩ := hmask
    have hrange := h.range ha
    rw [hsigned] at hrange
    rw [h.constant hb hv]
    exact ⟨hnone, land_fullMask hbits (hrange.mono hle)⟩
  · cases hmask

/-- The comparison of two numbers chooses one of them as the result of `op`, and that of the numbers
the other way round as the result of `op'`. -/
structure Chooses (cmp op op' : DyadicOp) : Prop where
  truth : ∀ u v, cmp.apply u v = 0 ∨ cmp.apply u v = 1
  direct : ∀ u v, (if cmp.apply u v ≠ 0 then u else v) = op.apply u v
  swapped : ∀ u v, (if cmp.apply v u ≠ 0 then u else v) = op'.apply u v
  commutes : op.commutes = true ∧ op'.commutes = true

theorem chooses_max {cmp : DyadicOp} (h : cmp = .gt ∨ cmp = .ge) : Chooses cmp .max .min := by
  rcases h with rfl | rfl
  all_goals
    refine ⟨fun u v => ?_, fun u v => ?_, fun u v => ?_, rfl, rfl⟩ <;> simp only [DyadicOp.apply]
    · split <;> simp
    · split_ifs <;> omega
    · split_ifs <;> omega

theorem chooses_min {cmp : DyadicOp} (h : cmp = .lt ∨ cmp = .le) : Chooses cmp .min .max := by
  rcases h with rfl | rfl
  all_goals
    refine ⟨fun u v => ?_, fun u v => ?_, fun u v => ?_, rfl, rfl⟩ <;> simp only [DyadicOp.apply]
    · split <;> simp
    · split_ifs <;> omega
    · split_ifs <;> omega

/-- The comparison of `x` and `y`, which are `a` and `b` by their keys, chooses between these. -/
def Picks (cmp op : DyadicOp) (x y a b : Canon) : Prop :=
  (x.key = a.key ∧ y.key = b.key ∧ ∃ other, Chooses cmp op other) ∨
    (x.key = b.key ∧ y.key = a.key ∧ ∃ other, Chooses cmp other op)

theorem Picks.commutes {cmp op : DyadicOp} {x y a b : Canon} (h : Picks cmp op x y a b) :
    op.commutes = true := by
  rcases h with ⟨-, -, _, hchoose⟩ | ⟨-, -, _, hchoose⟩
  · exact hchoose.commutes.1
  · exact hchoose.commutes.2

theorem picks_of_ite {cmp first second op : DyadicOp} {x y a b : Canon}
    (hchoose : Chooses cmp first second)
    (h : (if (x.key = a.key && y.key = b.key) then some first
      else if (x.key = b.key && y.key = a.key) then some second else none) = some op) :
    Picks cmp op x y a b := by
  split at h
  · rename_i hkeys
    rw [Bool.and_eq_true, decide_eq_true_iff, decide_eq_true_iff] at hkeys
    exact .inl ⟨hkeys.1, hkeys.2, second, Option.some.inj h ▸ hchoose⟩
  split at h
  · rename_i hkeys
    rw [Bool.and_eq_true, decide_eq_true_iff, decide_eq_true_iff] at hkeys
    exact .inr ⟨hkeys.1, hkeys.2, first, Option.some.inj h ▸ hchoose⟩
  · cases h

/-- A choice is taken for a maximum or minimum if it is one by its keys. -/
theorem extremum_eq_some {c a b : Canon} {op : DyadicOp} (h : extremum? c a b = some op) :
    ∃ o cmp x y, c = .dyadic o cmp x y ∧ Picks cmp op x y a b := by
  cases c with
  | var | const | monadic | select | sum => cases h
  | dyadic o cmp x y =>
    refine ⟨o, cmp, x, y, rfl, ?_⟩
    cases cmp with
    | gt => exact picks_of_ite (chooses_max (.inl rfl)) h
    | ge => exact picks_of_ite (chooses_max (.inr rfl)) h
    | lt => exact picks_of_ite (chooses_min (.inl rfl)) h
    | le => exact picks_of_ite (chooses_min (.inr rfl)) h
    | mul | and | or | xor | shl | shr | max | min | eq | ne => cases h

/-- **A choice that is taken for a maximum or minimum has its value.** -/
theorem Below.apply_of_extremum {c a b : Expr Nat} {op : DyadicOp} (h : Below env m)
    (hc : c.Under m) (ha : a.Under m) (hb : b.Under m)
    (hop : extremum? (ofExpr c) (ofExpr a) (ofExpr b) = some op) :
    op.apply (a.value env) (b.value env) =
      if c.value env ≠ 0 then a.value env else b.value env := by
  obtain ⟨o, cmp, x, y, hform, hpicks⟩ := extremum_eq_some hop
  -- the operands of the comparison are forms of expressions below it
  obtain ⟨sx, hsx, rfl⟩ := child_ofExpr (e := c) (d := x) (by simp [hform, children])
  obtain ⟨sy, hsy, rfl⟩ := child_ofExpr (e := c) (d := y) (by simp [hform, children])
  have hcond : (∀ u v, cmp.apply u v = 0 ∨ cmp.apply u v = 1) →
      (c.value env ≠ 0 ↔ cmp.apply (sx.value env) (sy.value env) ≠ 0) := by
    intro htruth
    have hiff := h.truth hc hform htruth
    rwa [hform, topValue, sourceValue_ofExpr, sourceValue_ofExpr] at hiff
  rcases hpicks with ⟨hxa, hyb, other, hchoose⟩ | ⟨hxb, hya, other, hchoose⟩
  · rw [if_congr (hcond hchoose.truth) rfl rfl, h.same (hsx.trans hc) ha hxa,
      h.same (hsy.trans hc) hb hyb]
    exact (hchoose.direct _ _).symm
  · rw [if_congr (hcond hchoose.truth) rfl rfl, h.same (hsx.trans hc) hb hxb,
      h.same (hsy.trans hc) ha hya]
    exact (hchoose.swapped _ _).symm

/-! ## Sums -/

theorem Below.constantsHold (h : Below env m) (hadd : m.isAdditive = true) :
    Chain.ConstantsHold env m.ty m :=
  fun _ hs _ hv =>
    h.constant ((Chain.Operand.of_mem_leaves hs).under hadd (Chain.merges_self m)) hv

theorem Below.keysHold (h : Below env m) : Chain.KeysHold env m := by
  intro t ht u hu _ hkey
  obtain ⟨-, s, hs, heq⟩ := Chain.term_ofSum ht
  obtain ⟨-, s', hs', heq'⟩ := Chain.term_ofSum hu
  rw [heq, heq'] at hkey ⊢
  rw [sourceValue_ofExpr, sourceValue_ofExpr]
  exact h.same hs hs' hkey

/-- What is left of an addition, subtraction or negation computes its value. -/
theorem computes_of_remains (hproper : m.Proper) (hadm : m.Admits env) (h : Below env m)
    (hadd : m.isAdditive = true)
    (hremains : Chain.Remains m (Chain.ofSum m).left ((Chain.ofSum m).constantIn m) (ofExpr m)) :
    Computes env m := by
  have hconst := h.constantsHold hadd
  have hreduce := Chain.reduce_sumValue hproper hadm hconst hadd h.keysHold
  have hexact := Chain.sumValue_eq hproper hadm hconst hadd h.keysHold
  generalize hc : ofExpr m = c at hremains
  cases hremains with
  | const absorbed hterms =>
    refine .const absorbed _ hc ?_
    rw [← hreduce, Chain.sumValue, hterms, Chain.termsValue, Int.zero_add]
  | term c others hterms hzero =>
    obtain ⟨hnone, s, hs, rfl⟩ := Chain.only_left hterms
    have hsum : Chain.sumValue env m = s.value env := by
      rw [Chain.sumValue, hterms, hzero]
      simp only [Chain.termsValue, Chain.signed, sourceValue_ofExpr, Int.add_zero, if_false,
        Bool.false_eq_true]
    rw [hsum] at hreduce hexact
    exact .collapsed s others hs hc hreduce.symm (.inl hnone) fun hover => (hexact hover).symm
  | sum o adds hne hmore hty hsource hinfo =>
    have hterms : ∀ t ∈ (Chain.ofSum m).left, t.2.info.Tracks m.ty (t.2.sourceValue env) := by
      intro t ht
      obtain ⟨-, s, hs, heq⟩ := Chain.term_left ht
      rw [heq, sourceValue_ofExpr]
      exact Width.tracks_of_within (h.pos hs) (h.range hs)
    refine .sum o _ _ adds hc hty ?_ hreduce.symm ?_
    · exact Chain.bounds_of_remains hproper hadm hreduce hterms hne hmore hinfo
    · rintro (hover | hover)
      · rcases hinfo with hsame | hsum
        · exact (hexact (hsame ▸ hover)).symm
        · rw [hsum] at hover
          exact hreduce ▸ (Chain.settles_sumInfo hproper.ty hterms hne hmore).exact hover
      · exact (hexact hover).symm

/-! ## Every expression -/

/-- **The value of every expression comes about in one of these ways.** -/
theorem computes_of_below (hproper : m.Proper) (hadm : m.Admits env) (h : Below env m) :
    Computes env m := by
  have hunder : ∀ a ∈ m.children, a.Under m :=
    fun a ha => Expr.under_of_child ha a.mem_preorder_self
  have hsound := (Expr.info_sound hproper hadm).2
  have hmade := made_ofExpr m
  generalize hc : ofExpr m = c at hmade
  -- a node that is lossy where the expression overflows
  have hown : ∀ absorbed, (ofExpr m).origin = .ofExpr m absorbed →
      (ofExpr m).isTruncation = false → (ofExpr m).lossy = m.info.overflow →
      m.isComplement = false → (ofExpr m).topValue env = m.exactValue env → Computes env m :=
    fun absorbed horigin hwhole hlossy hcompl htop =>
      .own absorbed horigin hwhole htop fun hkeep => hsound (hlossy ▸ hkeep) hcompl
  cases hmade with
  | var => exact .own _ (by rw [hc]; rfl) (by rw [hc]; rfl) (by rw [hc]; rfl) fun _ => rfl
  | const => exact .const _ _ hc rfl
  | castKept tag ty a others hover =>
    have hsame := hsound hover rfl
    exact .collapsed a others (hunder a (by simp [Expr.children])) hc rfl (.inr hsame)
      fun _ => hsame
  | castConst tag ty a v absorbed hv =>
    refine .const absorbed _ hc ?_
    rw [← h.constant (hunder a (by simp [Expr.children])) hv]
    rfl
  | trunc tag ty a hover =>
    refine .truncation (by rw [hc]; rfl) (by rw [hc]; rfl) rfl ?_ hover
    rw [hc]
    exact sourceValue_ofExpr env a
  | notConst tag a v absorbed hv =>
    refine .const absorbed _ hc ?_
    rw [← h.constant (hunder a (by simp [Expr.children])) hv]
    rfl
  | not tag a =>
    refine .own _ (by rw [hc]; rfl) (by rw [hc]; rfl) ?_ ?_ <;> rw [hc]
    · rw [topValue, sourceValue_ofExpr]
      rfl
    · intro hlossy
      have hsigned : (!a.ty.promoted.signed) = false := hlossy
      exact Expr.value_complement (a := a) hproper hadm (by simpa using hsigned)
  | sum e c hadd hremains =>
    rw [← hc] at hremains
    exact computes_of_remains hproper hadm h hadd hremains
  | folded tag op op' a b va vb v absorbed hop ha hb hv =>
    refine .const absorbed _ hc ?_
    obtain ⟨hlow, hhigh⟩ := IntType.magnitude_of_has (Expr.Proper.ty hproper.1)
      (Expr.has_value hproper.1 hadm.1)
    rw [← h.constant (hunder a (by simp [Expr.children])) ha,
      ← h.constant (hunder b (by simp [Expr.children])) hb] at hv
    have hfold := DyadicOp.reduce_fold hproper.ty (by omega) (by omega) hv
    rw [DyadicOp.apply_ofBinary hop] at hfold
    exact hfold.symm
  | masked tag a b others hmask =>
    obtain ⟨hnone, hland⟩ := h.land_of_keepsAll (hunder a (by simp [Expr.children]))
      (hunder b (by simp [Expr.children])) hmask
    refine .collapsed a others (hunder a (by simp [Expr.children])) hc ?_ (.inl hnone)
      fun hover => (hsound hover rfl).trans hland
    rw [Expr.value, BinaryOp.apply, hland]
    rfl
  | maskedBy tag a b others hmask =>
    obtain ⟨hnone, hland⟩ := h.land_of_keepsAll (hunder b (by simp [Expr.children]))
      (hunder a (by simp [Expr.children])) hmask
    rw [land_comm] at hland
    refine .collapsed b others (hunder b (by simp [Expr.children])) hc ?_ (.inl hnone)
      fun hover => (hsound hover rfl).trans hland
    rw [Expr.value, BinaryOp.apply, hland]
    rfl
  | dyadic tag op op' a b hop =>
    refine hown _ (by rw [hc]; rfl) (by rw [hc]; rfl) (by rw [hc]; rfl) rfl ?_
    rw [hc, topValue, sourceValue_ofExpr, sourceValue_ofExpr, DyadicOp.apply_ofBinary hop]
    rfl
  | swapped tag op op' a b hop hcomm =>
    refine hown _ (by rw [hc]; rfl) (by rw [hc]; rfl) (by rw [hc]; rfl) rfl ?_
    rw [hc, topValue, sourceValue_ofExpr, sourceValue_ofExpr, DyadicOp.apply_comm hcomm,
      DyadicOp.apply_ofBinary hop]
    rfl
  | extremum tag c a b op absorbed x y hxy hop =>
    have hchoice := h.apply_of_extremum (hunder c (by simp [Expr.children]))
      (hunder a (by simp [Expr.children])) (hunder b (by simp [Expr.children])) hop
    refine hown _ (by rw [hc]; rfl) (by rw [hc]; rfl) (by rw [hc]; rfl) rfl ?_
    rw [hc, topValue, sourceValue_ofExpr, sourceValue_ofExpr]
    obtain ⟨_, _, _, _, _, hpicks⟩ := extremum_eq_some hop
    rcases hxy with ⟨rfl, rfl⟩ | ⟨rfl, rfl⟩
    · exact hchoice
    · rw [DyadicOp.apply_comm hpicks.commutes]
      exact hchoice
  | select tag c a b =>
    refine hown _ (by rw [hc]; rfl) (by rw [hc]; rfl) (by rw [hc]; rfl) rfl ?_
    rw [hc, topValue, sourceValue_ofExpr, sourceValue_ofExpr, sourceValue_ofExpr]
    rfl

end Canon
end CustomIsa
