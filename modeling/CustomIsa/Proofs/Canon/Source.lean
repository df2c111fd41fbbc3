import CustomIsa.Canon.Build
import CustomIsa.Proofs.Canon.Key
import CustomIsa.Proofs.Expr.Tree
/-! # Canonical forms and their source

Everything in the canonical form of an expression is the canonical form of an expression below it:
the nodes right under the topmost one (`Canon.child_ofExpr`) and the terms of its chain
(`Chain.term_ofExpr`). What a chain is made of is said once, as a principle of induction
(`Chain.gather_induct`); the expressions where gathering stops are its leaves (`Chain.leaves`), and
its terms are the forms of those that are no constants (`Chain.terms_ofExpr`).

Not every expression below has a node: additions inside a sum are gathered into it, terms that
cancel leave nothing, and the comparison of a maximum or minimum goes into it. What a form keeps
apart at every step is visible (`Expr.Visible`), and only that has nodes (`Canon.visible_child`). -/
namespace CustomIsa

/-! ## Expressions below an expression -/

namespace Expr
variable {α : Type}

theorem mem_preorder_self (e : Expr α) : e ∈ e.preorder := by
  cases e <;> simp [preorder]

theorem mem_preorder_of_child {e a s : Expr α} (ha : a ∈ e.children) (hs : s ∈ a.preorder) :
    s ∈ e.preorder := by
  cases e <;> simp only [children, List.mem_cons, List.not_mem_nil, or_false] at ha
  · subst ha
    exact List.mem_cons_of_mem _ hs
  · rcases ha with rfl | rfl <;> simp [preorder, hs]
  · subst ha
    exact List.mem_cons_of_mem _ hs
  · rcases ha with rfl | rfl | rfl <;> simp [preorder, hs]

theorem size_of_child {e a : Expr α} (ha : a ∈ e.children) : a.size < e.size := by
  cases e <;> simp only [children, List.mem_cons, List.not_mem_nil, or_false] at ha
  · subst ha
    simp only [size]
    omega
  · rcases ha with rfl | rfl <;> simp only [size] <;> omega
  · subst ha
    simp only [size]
    omega
  · rcases ha with rfl | rfl | rfl <;> simp only [size] <;> omega

/-- A node of an expression is the expression itself or a node of an operand. -/
theorem mem_preorder {e s : Expr α} (h : s ∈ e.preorder) :
    s = e ∨ ∃ a ∈ e.children, s ∈ a.preorder := by
  cases e with
  | var | const => exact .inl (List.mem_singleton.mp h)
  | unary | cast =>
    rcases List.mem_cons.mp h with h | h
    · exact .inl h
    · exact .inr ⟨_, by simp [children], h⟩
  | binary _ _ a b =>
    rcases List.mem_cons.mp h with h | h
    · exact .inl h
    · rcases List.mem_append.mp h with h | h
      · exact .inr ⟨a, by simp [children], h⟩
      · exact .inr ⟨b, by simp [children], h⟩
  | select _ c a b =>
    rcases List.mem_cons.mp h with h | h
    · exact .inl h
    · rcases List.mem_append.mp h with h | h
      · rcases List.mem_append.mp h with h | h
        · exact .inr ⟨c, by simp [children], h⟩
        · exact .inr ⟨a, by simp [children], h⟩
      · exact .inr ⟨b, by simp [children], h⟩

/-- The expression is a node of another one, other than its topmost. -/
structure Under (s e : Expr α) : Prop where
  mem : s ∈ e.preorder
  size : s.size < e.size

theorem size_le_of_mem {e s : Expr α} (h : s ∈ e.preorder) : s.size ≤ e.size := by
  induction hn : e.size using Nat.strongRecOn generalizing e with
  | ind n ih =>
    subst hn
    rcases mem_preorder h with rfl | ⟨a, ha, hs⟩
    · exact Nat.le_refl _
    · have hlt := size_of_child ha
      exact Nat.le_trans (ih _ hlt hs rfl) (Nat.le_of_lt hlt)

theorem mem_preorder_trans {e a s : Expr α} (ha : a ∈ e.preorder) (hs : s ∈ a.preorder) :
    s ∈ e.preorder := by
  induction hn : e.size using Nat.strongRecOn generalizing e with
  | ind n ih =>
    subst hn
    rcases mem_preorder ha with rfl | ⟨b, hb, hab⟩
    · exact hs
    · exact mem_preorder_of_child hb (ih _ (size_of_child hb) hab rfl)

theorem under_of_child {e a s : Expr α} (ha : a ∈ e.children) (hs : s ∈ a.preorder) :
    s.Under e :=
  ⟨mem_preorder_of_child ha hs, Nat.lt_of_le_of_lt (size_le_of_mem hs) (size_of_child ha)⟩

theorem Under.trans {e a s : Expr α} (hs : s.Under a) (ha : a.Under e) : s.Under e :=
  ⟨mem_preorder_trans ha.mem hs.mem, Nat.lt_trans hs.size ha.size⟩

theorem Obeys.of_mem_preorder {rule : LeafRule} {e s : Expr α} (h : e.Obeys rule)
    (hs : s ∈ e.preorder) : s.Obeys rule := by
  induction hn : e.size using Nat.strongRecOn generalizing e with
  | ind n ih =>
    subst hn
    rcases mem_preorder hs with rfl | ⟨a, ha, hs⟩
    · exact h
    · refine ih _ (size_of_child ha) ?_ hs rfl
      cases e <;> simp only [children, List.mem_cons, List.not_mem_nil, or_false] at ha
      · exact ha ▸ h
      · rcases ha with rfl | rfl
        · exact h.1
        · exact h.2
      · exact ha ▸ h.2
      · rcases ha with rfl | rfl | rfl
        · exact h.1
        · exact h.2.1
        · exact h.2.2

end Expr

/-! ## Chains -/

namespace Chain
variable {root : IntType}

/-- The expressions whose forms a chain is gathered from, in order: the expression itself, unless it
is an addition that belongs to the chain, or a cast of an addition that loses nothing. -/
def leaves (root : IntType) : Expr Nat → List (Expr Nat)
  | e@(.cast _ _ a) => if !e.info.overflow ∧ a.isAdditive then leaves root a else [e]
  | e@(.unary _ _ a) => if e.isAdditive ∧ merges root e then leaves root a else [e]
  | e@(.binary _ _ a b) =>
    if e.isAdditive ∧ merges root e then leaves root a ++ leaves root b else [e]
  | e => [e]

theorem leaves_cast {tag : Nat} {ty : IntType} {a : Expr Nat}
    (hover : (Expr.cast tag ty a).info.overflow = false) (hadd : a.isAdditive = true) :
    leaves root (.cast tag ty a) = leaves root a := by
  rw [leaves, if_pos ⟨by rw [hover]; rfl, hadd⟩]

theorem leaves_neg {tag : Nat} {a : Expr Nat} (hmerge : merges root (.unary tag .neg a) = true) :
    leaves root (.unary tag .neg a) = leaves root a := by
  rw [leaves, if_pos ⟨rfl, hmerge⟩]

theorem leaves_binary {tag : Nat} {op : BinaryOp} {a b : Expr Nat}
    (hadd : (Expr.binary tag op a b).isAdditive = true)
    (hmerge : merges root (.binary tag op a b) = true) :
    leaves root (.binary tag op a b) = leaves root a ++ leaves root b := by
  rw [leaves, if_pos ⟨hadd, hmerge⟩]

theorem isAdditive_of_ofBinary {tag : Nat} {op : BinaryOp} {a b : Expr Nat}
    (h : DyadicOp.ofBinary? op = none) : (Expr.binary tag op a b).isAdditive = true := by
  cases op <;> first | rfl | cases h

/-- How the chain of an operand is made: as the form of a leaf, or from the chains of what it goes
through. -/
theorem gather_induct (root : IntType) {P : Bool → Expr Nat → Chain → Prop}
    (leaf : ∀ negated e, ¬(e.isAdditive = true ∧ merges root e = true) → leaves root e = [e] →
      P negated e (.leaf negated (Canon.ofExpr e)))
    (cast : ∀ negated tag ty a, (Expr.cast tag ty a).info.overflow = false → a.isAdditive = true →
      P negated a (Chain.ofExpr root negated a) →
      P negated (.cast tag ty a) (.pass tag (Chain.ofExpr root negated a)))
    (neg : ∀ negated tag a, merges root (.unary tag .neg a) = true →
      P (!negated) a (Chain.ofExpr root (!negated) a) →
      P negated (.unary tag .neg a) (.pass tag (Chain.ofExpr root (!negated) a)))
    (sum : ∀ negated tag op a b, DyadicOp.ofBinary? op = none →
      merges root (.binary tag op a b) = true →
      P negated a (Chain.ofExpr root negated a) →
      P (negated ^^ op.subtracts) b (Chain.ofExpr root (negated ^^ op.subtracts) b) →
      P negated (.binary tag op a b) (.join tag (Chain.ofExpr root negated a)
        (Chain.ofExpr root (negated ^^ op.subtracts) b)))
    (negated : Bool) (e : Expr Nat) : P negated e (Chain.ofExpr root negated e) := by
  induction e generalizing negated with
  | var tag name ty => exact leaf negated (.var tag name ty) (by simp [Expr.isAdditive]) rfl
  | const tag v ty => exact leaf negated (.const tag v ty) (by simp [Expr.isAdditive]) rfl
  | cast tag ty a ih =>
    rw [Chain.ofExpr]
    split
    · rename_i h
      exact cast negated tag ty a (by simpa using h.1) h.2 (ih negated)
    · rename_i h
      have hleaf := leaf negated (.cast tag ty a) (by simp [Expr.isAdditive])
        (by rw [leaves, if_neg h])
      rwa [Canon.ofExpr] at hleaf
  | unary tag op a ih =>
    have hleaf := fun h => leaf negated (.unary tag op a) h (by rw [leaves, if_neg h])
    cases op with
    | not =>
      have hleaf := hleaf (by simp [Expr.isAdditive])
      rwa [Canon.ofExpr] at hleaf
    | neg =>
      rw [Chain.ofExpr]
      split
      · rename_i h
        exact neg negated tag a h (ih _)
      · rename_i h
        have hleaf := hleaf fun hmerge => h hmerge.2
        rwa [Canon.ofExpr] at hleaf
  | binary tag op a b iha ihb =>
    rw [Chain.ofExpr]
    have hleaf := fun h => leaf negated (.binary tag op a b) h (by rw [leaves, if_neg h])
    rw [Canon.ofExpr] at hleaf
    split
    · rename_i op' hop
      rw [hop] at hleaf
      have hadd : (Expr.binary tag op a b).isAdditive = false := by
        cases op <;> first | rfl | cases hop
      exact hleaf (by simp [hadd])
    · rename_i hop
      rw [hop] at hleaf
      split
      · rename_i h
        exact sum negated tag op a b hop h (iha _) (ihb _)
      · rename_i h
        exact hleaf fun hmerge => h hmerge.2
  | select tag c a b =>
    have hleaf := leaf negated (.select tag c a b) (by simp [Expr.isAdditive]) rfl
    rwa [Canon.ofExpr] at hleaf

theorem mem_leaf {negated : Bool} {c : Canon} {t : Bool × Canon}
    (h : t ∈ (leaf negated c).terms) : t = (negated, c) ∧ c.constant? = none := by
  rw [leaf] at h
  cases hc : c.constant? with
  | some v =>
    rw [hc] at h
    cases h
  | none =>
    rw [hc] at h
    exact ⟨List.mem_singleton.mp h, rfl⟩

/-- The expression is an operand of the chain of another one: that one itself, unless it is an
addition inside the chain, or else an operand of what the chain goes through. -/
inductive Operand (root : IntType) : Expr Nat → Expr Nat → Prop where
  | self {e : Expr Nat} (h : ¬(e.isAdditive = true ∧ merges root e = true)) : Operand root e e
  | cast {tag : Nat} {ty : IntType} {a s : Expr Nat}
    (hover : (Expr.cast tag ty a).info.overflow = false) (h : Operand root a s) :
    Operand root (.cast tag ty a) s
  | neg {tag : Nat} {a s : Expr Nat} (hmerge : merges root (.unary tag .neg a) = true)
    (h : Operand root a s) : Operand root (.unary tag .neg a) s
  | first {tag : Nat} {op : BinaryOp} {a b s : Expr Nat}
    (hmerge : merges root (.binary tag op a b) = true) (h : Operand root a s) :
    Operand root (.binary tag op a b) s
  | second {tag : Nat} {op : BinaryOp} {a b s : Expr Nat}
    (hmerge : merges root (.binary tag op a b) = true) (h : Operand root b s) :
    Operand root (.binary tag op a b) s

theorem Operand.mem_preorder {e s : Expr Nat} (h : Operand root e s) : s ∈ e.preorder := by
  induction h with
  | self => exact Expr.mem_preorder_self _
  | cast _ _ ih | neg _ _ ih | first _ _ ih | second _ _ ih =>
    exact Expr.mem_preorder_of_child (by simp [Expr.children]) ih

/-- The operands of an addition inside the chain are expressions below it. -/
theorem Operand.under {e s : Expr Nat} (hadd : e.isAdditive = true) (hmerge : merges root e = true)
    (h : Operand root e s) : s.Under e := by
  cases h with
  | self h => exact absurd ⟨hadd, hmerge⟩ h
  | cast => cases hadd
  | neg _ h | first _ h | second _ h =>
    exact Expr.under_of_child (by simp [Expr.children]) h.mem_preorder

/-- The leaves of a chain are operands of it. -/
theorem Operand.of_mem_leaves {e s : Expr Nat} (h : s ∈ leaves root e) : Operand root e s := by
  revert h
  refine gather_induct root (P := fun _ e _ => s ∈ leaves root e → Operand root e s) ?_ ?_ ?_ ?_
    false e
  · intro _ e hself hleaf h
    rw [hleaf] at h
    obtain rfl := List.mem_singleton.mp h
    exact .self hself
  · intro _ tag ty a hover hadd ih h
    rw [leaves_cast hover hadd] at h
    exact .cast hover (ih h)
  · intro _ tag a hmerge ih h
    rw [leaves_neg hmerge] at h
    exact .neg hmerge (ih h)
  · intro _ tag op a b hop hmerge iha ihb h
    rw [leaves_binary (isAdditive_of_ofBinary hop) hmerge] at h
    rcases List.mem_append.mp h with h | h
    · exact .first hmerge (iha h)
    · exact .second hmerge (ihb h)

/-- **The terms of a chain are the forms of its leaves that are no constants**, in order. -/
theorem terms_ofExpr (root : IntType) (negated : Bool) (e : Expr Nat) :
    (Chain.ofExpr root negated e).terms.map Prod.snd =
      ((leaves root e).map Canon.ofExpr).filter (·.constant?.isNone) := by
  refine gather_induct root (P := fun _ e ch =>
    ch.terms.map Prod.snd = ((leaves root e).map Canon.ofExpr).filter (·.constant?.isNone))
    ?_ ?_ ?_ ?_ negated e
  · intro negated e _ hleaf
    rw [hleaf, leaf]
    cases hc : (Canon.ofExpr e).constant? <;> simp [hc]
  · intro _ tag ty a hover hadd ih
    rw [leaves_cast hover hadd]
    exact ih
  · intro _ tag a hmerge ih
    rw [leaves_neg hmerge]
    exact ih
  · intro _ tag op a b hop hmerge iha ihb
    rw [leaves_binary (isAdditive_of_ofBinary hop) hmerge, List.map_append, List.filter_append,
      ← iha, ← ihb]
    exact List.map_append

/-- **Every term of a chain is the canonical form of an operand**, and no constant. -/
theorem term_ofExpr (negated : Bool) (e : Expr Nat) {t : Bool × Canon}
    (ht : t ∈ (Chain.ofExpr root negated e).terms) :
    t.2.constant? = none ∧ ∃ s, Operand root e s ∧ t.2 = Canon.ofExpr s := by
  have hmem := List.mem_map_of_mem (f := Prod.snd) ht
  rw [terms_ofExpr, List.mem_filter, Option.isNone_iff_eq_none] at hmem
  obtain ⟨hform, hc⟩ := hmem
  obtain ⟨s, hs, heq⟩ := List.mem_map.mp hform
  exact ⟨hc, s, .of_mem_leaves hs, heq.symm⟩

theorem takeOpposite_eq_some {t : Bool × Canon} {l rest : List (Bool × Canon)} {c : Canon}
    (h : takeOpposite t l = some (c, rest)) :
    c.key = t.2.key ∧ l.Perm ((!t.1, c) :: rest) := by
  induction l generalizing rest with
  | nil => cases h
  | cons s ss ih =>
    rw [takeOpposite] at h
    split at h
    · rename_i hs
      obtain ⟨rfl, rfl⟩ := Prod.mk.inj (Option.some.inj h)
      have hsign : s.1 = !t.1 := by
        cases hs₁ : s.1 <;> cases ht₁ : t.1 <;> simp [hs₁, ht₁] at hs ⊢
      exact ⟨hs.2, hsign ▸ List.Perm.refl _⟩
    · obtain ⟨⟨c', rest'⟩, hfind, heq⟩ := Option.map_eq_some_iff.mp h
      obtain ⟨rfl, rfl⟩ := Prod.mk.inj heq
      obtain ⟨hkey, hperm⟩ := ih hfind
      exact ⟨hkey, (hperm.cons s).trans (List.Perm.swap _ _ _)⟩

theorem takeOpposite_sublist {t : Bool × Canon} {l rest : List (Bool × Canon)} {c : Canon}
    (h : takeOpposite t l = some (c, rest)) : rest.Sublist l := by
  induction l generalizing rest with
  | nil => cases h
  | cons s ss ih =>
    rw [takeOpposite] at h
    split at h
    · obtain ⟨-, rfl⟩ := Prod.mk.inj (Option.some.inj h)
      exact List.sublist_cons_self _ _
    · obtain ⟨⟨c', rest'⟩, hfind, heq⟩ := Option.map_eq_some_iff.mp h
      obtain ⟨rfl, rfl⟩ := Prod.mk.inj heq
      exact (ih hfind).cons_cons s

/-- Only terms of the chain are kept, in their order. -/
theorem cancel_sublist (kept ts : List (Bool × Canon)) :
    (cancel kept ts).1.Sublist (kept ++ ts) := by
  induction ts generalizing kept with
  | nil => exact List.sublist_append_left kept []
  | cons t ts ih =>
    rw [cancel]
    split
    · rename_i other rest hfind
      exact (ih rest).trans ((takeOpposite_sublist hfind).append (List.sublist_cons_self _ _))
    · have hmove : kept ++ [t] ++ ts = kept ++ t :: ts := by simp
      exact hmove ▸ ih (kept ++ [t])

/-- The terms that are left when opposite ones have cancelled. -/
def left (ch : Chain) : List (Bool × Canon) := (cancel [] (Sorting.sort termLe ch.terms)).1

/-- The constant of the chain, brought into the type of an expression that overflows. -/
def constantIn (e : Expr Nat) (ch : Chain) : Int :=
  if e.info.overflow then e.ty.reduce ch.constant else ch.constant

theorem mem_left {ch : Chain} {t : Bool × Canon} (h : t ∈ ch.left) : t ∈ ch.terms :=
  (Sorting.sort_perm _ _).mem_iff.mp ((cancel_sublist [] _).subset h)

theorem left_eq_nil {ch : Chain} (h : ch.terms = []) : ch.left = [] := by
  rw [left, h]
  rfl

/-- The chain of an addition, subtraction or negation. -/
def ofSum : Expr Nat → Chain
  | e@(.unary tag .neg a) => .pass tag (Chain.ofExpr e.ty true a)
  | e@(.binary tag op a b) =>
    .join tag (Chain.ofExpr e.ty false a) (Chain.ofExpr e.ty op.subtracts b)
  | _ => {}

theorem merges_self (e : Expr Nat) : merges e.ty e = true := by
  simp [merges]

theorem operand_ofSum {e : Expr Nat} {t : Bool × Canon} (ht : t ∈ (ofSum e).terms) :
    t.2.constant? = none ∧ ∃ s, Operand e.ty e s ∧ s.Under e ∧ t.2 = Canon.ofExpr s := by
  have hmerge := merges_self e
  cases e with
  | unary tag op a =>
    cases op with
    | not => cases ht
    | neg =>
      obtain ⟨hc, s, hs, heq⟩ := term_ofExpr _ _ ht
      exact ⟨hc, s, .neg hmerge hs, Expr.under_of_child (by simp [Expr.children]) hs.mem_preorder,
        heq⟩
  | binary tag op a b =>
    rcases List.mem_append.mp ht with ht | ht
    · obtain ⟨hc, s, hs, heq⟩ := term_ofExpr _ _ ht
      exact ⟨hc, s, .first hmerge hs,
        Expr.under_of_child (by simp [Expr.children]) hs.mem_preorder, heq⟩
    · obtain ⟨hc, s, hs, heq⟩ := term_ofExpr _ _ ht
      exact ⟨hc, s, .second hmerge hs,
        Expr.under_of_child (by simp [Expr.children]) hs.mem_preorder, heq⟩
  | var | const | cast | select => cases ht

theorem term_ofSum {e : Expr Nat} {t : Bool × Canon} (ht : t ∈ (ofSum e).terms) :
    t.2.constant? = none ∧ ∃ s, s.Under e ∧ t.2 = Canon.ofExpr s := by
  obtain ⟨hc, s, -, hs, heq⟩ := operand_ofSum ht
  exact ⟨hc, s, hs, heq⟩

theorem term_left {e : Expr Nat} {t : Bool × Canon} (ht : t ∈ (ofSum e).left) :
    t.2.constant? = none ∧ ∃ s, s.Under e ∧ t.2 = Canon.ofExpr s :=
  term_ofSum (mem_left ht)

/-- The only term that is left of a sum is the form of an expression below. -/
theorem only_left {e : Expr Nat} {c : Canon} (h : (ofSum e).left = [(false, c)]) :
    c.constant? = none ∧ ∃ s, s.Under e ∧ c = Canon.ofExpr s :=
  term_left (t := (false, c)) (h ▸ List.mem_cons_self)

/-- What remains of a sum of the given terms and constant: a constant, its only term, or a sum. -/
inductive Remains (e : Expr Nat) (terms : List (Bool × Canon)) (k : Int) : Canon → Prop where
  | const (absorbed : List Nat) (hterms : terms = []) :
    Remains e terms k (.const (.ofExpr e absorbed) (e.ty.reduce k))
  | term (c : Canon) (others : List Nat) (hterms : terms = [(false, c)]) (hk : k = 0) :
    Remains e terms k (c.wrap e others)
  | sum (o : Origin) (adds : List Nat) (hne : terms ≠ [])
    (hmore : ∀ c, terms = [(false, c)] → k ≠ 0) (hty : o.ty = e.ty) (hsource : o.source = e)
    (hinfo : o.info = e.info ∨ o.info = sumInfo e.ty terms k) (hreal : o.synthetic = false) :
    Remains e terms k (.sum o terms k adds)

theorem remains_toCanon (e : Expr Nat) (ch : Chain) :
    Remains e ch.left (ch.constantIn e) (ch.toCanon e) := by
  rw [toCanon, left, constantIn]
  obtain ⟨terms, gone⟩ := cancel [] (Sorting.sort termLe ch.terms)
  generalize (if e.info.overflow = true then e.ty.reduce ch.constant else ch.constant) = k
  cases terms with
  | nil => exact .const _ rfl
  | cons t more =>
    obtain ⟨negated, c⟩ := t
    simp only
    split
    · rename_i h
      obtain ⟨hneg, hmore, hk⟩ := h
      obtain rfl : negated = false := by simpa using hneg
      obtain rfl : more = [] := by simpa using hmore
      exact .term c _ rfl hk
    · rename_i h
      refine .sum _ _ (by simp) ?_ ?_ ?_ ?_ ?_
      · rintro c' hc' hk
        obtain ⟨hpair, rfl⟩ := List.cons.inj hc'
        obtain ⟨rfl, rfl⟩ := Prod.mk.inj hpair
        exact h ⟨rfl, rfl, hk⟩
      · split <;> rfl
      · split <;> rfl
      · split
        · exact .inl rfl
        · exact .inr rfl
      · split <;> rfl

/-- The form of an addition, subtraction or negation is made of its chain. -/
theorem toCanon_ofSum {e : Expr Nat} (hadd : e.isAdditive = true) :
    Canon.ofExpr e = (ofSum e).toCanon e := by
  cases e with
  | var | const | cast | select => cases hadd
  | unary tag op a =>
    cases op with
    | not => cases hadd
    | neg =>
      rw [Canon.ofExpr]
      rfl
  | binary tag op a b =>
    have hop : DyadicOp.ofBinary? op = none := by cases op <;> first | rfl | cases hadd
    rw [Canon.ofExpr, hop]
    rfl

/-- What remains of an addition, subtraction or negation. -/
theorem remains_ofSum {e : Expr Nat} (hadd : e.isAdditive = true) :
    Remains e (ofSum e).left ((ofSum e).constantIn e) (Canon.ofExpr e) := by
  rw [toCanon_ofSum hadd]
  exact remains_toCanon e (ofSum e)

end Chain

/-! ## What a form keeps apart -/

/-- The expressions right below that the canonical form keeps apart: the terms that are left of a
sum, the two operands of a maximum or minimum, and otherwise all operands. -/
def Expr.exposed (e : Expr Nat) : List (Expr Nat) :=
  if e.isAdditive then (Chain.ofSum e).left.map (·.2.origin.source)
  else
    match e with
    | .select _ c a b =>
      if (Canon.extremum? (Canon.ofExpr c) (Canon.ofExpr a) (Canon.ofExpr b)).isSome then [a, b]
      else [c, a, b]
    | e => e.children

/-- The expression is kept apart at every step from the root down to it. -/
inductive Expr.Visible (root : Expr Nat) : Expr Nat → Prop where
  | root : Visible root root
  | step {e s : Expr Nat} (he : Visible root e) (hs : s ∈ e.exposed) : Visible root s

theorem Expr.Visible.trans {root e s : Expr Nat} (he : root.Visible e) (hs : e.Visible s) :
    root.Visible s := by
  induction hs with
  | root => exact he
  | step _ hs ih => exact ih.step hs

theorem Expr.Visible.of_exposed {root a s : Expr Nat} (ha : a ∈ root.exposed)
    (hs : a.Visible s) : root.Visible s :=
  Visible.trans (.step .root ha) hs

theorem Expr.exposed_of_isAdditive {e : Expr Nat} (h : e.isAdditive = true) :
    e.exposed = (Chain.ofSum e).left.map (·.2.origin.source) := by
  unfold exposed
  rw [if_pos h]

theorem Expr.exposed_binary {tag : Nat} {op : BinaryOp} {op' : DyadicOp} {a b : Expr Nat}
    (h : DyadicOp.ofBinary? op = some op') : (Expr.binary tag op a b).exposed = [a, b] := by
  cases op <;> first | rfl | cases h

theorem Expr.exposed_extremum {tag : Nat} {c a b : Expr Nat} {op : DyadicOp}
    (h : Canon.extremum? (Canon.ofExpr c) (Canon.ofExpr a) (Canon.ofExpr b) = some op) :
    (Expr.select tag c a b).exposed = [a, b] := by
  simp [exposed, isAdditive, h]

theorem Expr.exposed_select {tag : Nat} {c a b : Expr Nat}
    (h : Canon.extremum? (Canon.ofExpr c) (Canon.ofExpr a) (Canon.ofExpr b) = none) :
    (Expr.select tag c a b).exposed = [c, a, b] := by
  simp [exposed, isAdditive, h]

/-! ## Canonical forms -/

namespace Canon
open Key

/-- All the ways in which the canonical form of an expression is made. -/
inductive Made : Expr Nat → Canon → Prop where
  | var (tag : Nat) (name : String) (ty : IntType) :
    Made (.var tag name ty) (.var (.ofExpr (.var tag name ty)) name)
  | const (tag : Nat) (v : Int) (ty : IntType) :
    Made (.const tag v ty) (.const (.ofExpr (.const tag v ty)) v)
  | castKept (tag : Nat) (ty : IntType) (a : Expr Nat) (others : List Nat)
    (hover : (Expr.cast tag ty a).info.overflow = false) :
    Made (.cast tag ty a) ((ofExpr a).wrap (.cast tag ty a) others)
  | castConst (tag : Nat) (ty : IntType) (a : Expr Nat) (v : Int) (absorbed : List Nat)
    (hv : (ofExpr a).constant? = some v) :
    Made (.cast tag ty a) (.const (.ofExpr (.cast tag ty a) absorbed) (ty.reduce v))
  | trunc (tag : Nat) (ty : IntType) (a : Expr Nat)
    (hover : (Expr.cast tag ty a).info.overflow = true) :
    Made (.cast tag ty a) (.monadic (.ofExpr (.cast tag ty a)) (.trunc ty.bits) (ofExpr a))
  | notConst (tag : Nat) (a : Expr Nat) (v : Int) (absorbed : List Nat)
    (hv : (ofExpr a).constant? = some v) :
    Made (.unary tag .not a)
      (.const (.ofExpr (.unary tag .not a) absorbed) (a.ty.promoted.reduce (-v - 1)))
  | not (tag : Nat) (a : Expr Nat) :
    Made (.unary tag .not a) (.monadic (.ofExpr (.unary tag .not a)) .not (ofExpr a))
  | sum (e : Expr Nat) (c : Canon) (hadd : e.isAdditive = true)
    (hc : Chain.Remains e (Chain.ofSum e).left ((Chain.ofSum e).constantIn e) c) :
    Made e c
  | folded (tag : Nat) (op : BinaryOp) (op' : DyadicOp) (a b : Expr Nat) (va vb v : Int)
    (absorbed : List Nat) (hop : DyadicOp.ofBinary? op = some op')
    (ha : (ofExpr a).constant? = some va) (hb : (ofExpr b).constant? = some vb)
    (hv : op'.fold? va vb = some v) :
    Made (.binary tag op a b) (.const (.ofExpr (.binary tag op a b) absorbed)
      ((op.resultType a.ty b.ty).reduce v))
  | masked (tag : Nat) (a b : Expr Nat) (others : List Nat)
    (hmask : keepsAll (ofExpr a) (ofExpr b) = true) :
    Made (.binary tag .and a b) ((ofExpr a).wrap (.binary tag .and a b) others)
  | maskedBy (tag : Nat) (a b : Expr Nat) (others : List Nat)
    (hmask : keepsAll (ofExpr b) (ofExpr a) = true) :
    Made (.binary tag .and a b) ((ofExpr b).wrap (.binary tag .and a b) others)
  | dyadic (tag : Nat) (op : BinaryOp) (op' : DyadicOp) (a b : Expr Nat)
    (hop : DyadicOp.ofBinary? op = some op') :
    Made (.binary tag op a b) (.dyadic (.ofExpr (.binary tag op a b)) op' (ofExpr a) (ofExpr b))
  | swapped (tag : Nat) (op : BinaryOp) (op' : DyadicOp) (a b : Expr Nat)
    (hop : DyadicOp.ofBinary? op = some op') (hcomm : op'.commutes = true) :
    Made (.binary tag op a b) (.dyadic (.ofExpr (.binary tag op a b)) op' (ofExpr b) (ofExpr a))
  | extremum (tag : Nat) (c a b : Expr Nat) (op : DyadicOp) (absorbed : List Nat)
    (x y : Expr Nat) (hxy : x = a ∧ y = b ∨ x = b ∧ y = a)
    (hop : extremum? (ofExpr c) (ofExpr a) (ofExpr b) = some op) :
    Made (.select tag c a b)
      (.dyadic (.ofExpr (.select tag c a b) absorbed) op (ofExpr x) (ofExpr y))
  | select (tag : Nat) (c a b : Expr Nat)
    (hnone : extremum? (ofExpr c) (ofExpr a) (ofExpr b) = none) :
    Made (.select tag c a b)
      (.select (.ofExpr (.select tag c a b)) (ofExpr c) (ofExpr a) (ofExpr b))

/-- Two forms in order are the same two forms. -/
theorem ordered_eq (a b : Canon) : ordered a b = (a, b) ∨ ordered a b = (b, a) := by
  rw [ordered]
  split
  · exact .inr rfl
  · exact .inl rfl

theorem made_dyadicNode (tag : Nat) {op : BinaryOp} {op' : DyadicOp} (a b : Expr Nat)
    (hop : DyadicOp.ofBinary? op = some op') :
    Made (.binary tag op a b) (dyadicNode (.binary tag op a b) op' (ofExpr a) (ofExpr b)) := by
  rw [dyadicNode]
  cases hfold : folded? (.binary tag op a b) op' (ofExpr a) (ofExpr b) with
  | some c =>
    obtain ⟨va, ha, hfold⟩ := Option.bind_eq_some_iff.mp hfold
    obtain ⟨vb, hb, hfold⟩ := Option.bind_eq_some_iff.mp hfold
    obtain ⟨v, hv, hfold⟩ := Option.bind_eq_some_iff.mp hfold
    obtain rfl := Option.some.inj hfold
    exact .folded tag op op' a b va vb v _ hop ha hb hv
  | none =>
    have hand : op' = .and → op = .and := by
      rintro rfl
      cases op <;> first | rfl | cases hop
    simp only
    split
    · rename_i h
      obtain rfl := hand h.1
      exact .masked tag a b _ h.2
    split
    · rename_i h
      obtain rfl := hand h.1
      exact .maskedBy tag a b _ h.2
    split
    · rename_i hcomm
      rcases ordered_eq (ofExpr a) (ofExpr b) with h | h <;> rw [h]
      · exact .dyadic tag op op' a b hop
      · exact .swapped tag op op' a b hop hcomm
    · exact .dyadic tag op op' a b hop

/-- **The canonical form of an expression is made in one of these ways.** -/
theorem made_ofExpr (e : Expr Nat) : Made e (ofExpr e) := by
  cases e with
  | var tag name ty => exact .var tag name ty
  | const tag v ty => exact .const tag v ty
  | cast tag ty a =>
    rw [ofExpr, castNode]
    split
    · rename_i h
      exact .castKept tag ty a _ (by simpa using h)
    · rename_i h
      cases hv : (ofExpr a).constant? with
      | some v => exact .castConst tag ty a v _ hv
      | none => exact .trunc tag ty a (by simpa using h)
  | unary tag op a =>
    cases op with
    | not =>
      rw [ofExpr, notNode]
      cases hv : (ofExpr a).constant? with
      | some v => exact .notConst tag a v _ hv
      | none => exact .not tag a
    | neg => exact .sum _ _ rfl (Chain.remains_ofSum rfl)
  | binary tag op a b =>
    cases hop : DyadicOp.ofBinary? op with
    | some op' =>
      rw [ofExpr, hop]
      exact made_dyadicNode tag a b hop
    | none =>
      have hadd : (Expr.binary tag op a b).isAdditive = true := by
        cases op <;> first | rfl | cases hop
      exact .sum _ _ hadd (Chain.remains_ofSum hadd)
  | select tag c a b =>
    rw [ofExpr, selectNode]
    cases hop : extremum? (ofExpr c) (ofExpr a) (ofExpr b) with
    | none => exact .select tag c a b hop
    | some op =>
      rcases ordered_eq (ofExpr a) (ofExpr b) with h | h <;> simp only [h]
      · exact .extremum tag c a b op _ a b (.inl ⟨rfl, rfl⟩) hop
      · exact .extremum tag c a b op _ b a (.inr ⟨rfl, rfl⟩) hop

@[simp] theorem origin_wrap (c : Canon) (outer : Expr Nat) (others : List Nat) :
    (c.wrap outer others).origin = c.origin.wrap outer others := by
  cases c <;> rfl

theorem children_withOrigin (c : Canon) (o : Origin) : (c.withOrigin o).children = c.children := by
  cases c <;> rfl

theorem constant_withOrigin (c : Canon) (o : Origin) :
    (c.withOrigin o).constant? = c.constant? := by
  cases c <;> rfl

theorem key_withOrigin (c : Canon) (o : Origin) : (c.withOrigin o).key = c.key := by
  cases c <;> simp [withOrigin, key]

@[simp] theorem children_wrap (c : Canon) (outer : Expr Nat) (others : List Nat) :
    (c.wrap outer others).children = c.children := children_withOrigin c _

@[simp] theorem constant_wrap (c : Canon) (outer : Expr Nat) (others : List Nat) :
    (c.wrap outer others).constant? = c.constant? := constant_withOrigin c _

@[simp] theorem key_wrap (c : Canon) (outer : Expr Nat) (others : List Nat) :
    (c.wrap outer others).key = c.key := key_withOrigin c _

/-- The outermost source node of a canonical form is the expression itself. -/
theorem source_ofExpr (e : Expr Nat) : (ofExpr e).origin.source = e := by
  have hmade := made_ofExpr e
  generalize ofExpr e = c at hmade
  cases hmade with
  | castKept | masked | maskedBy => rw [origin_wrap]; rfl
  | sum _ _ hadd hc =>
    cases hc with
    | const => rfl
    | term => rw [origin_wrap]; rfl
    | sum _ _ _ _ _ hsource => exact hsource
  | var | const | castConst | trunc | notConst | not | folded | dyadic | swapped | extremum
  | select => rfl

/-- The topmost node of a canonical form stands for a value of the source. -/
theorem real_ofExpr (e : Expr Nat) : (ofExpr e).origin.synthetic = false := by
  induction hn : e.size using Nat.strongRecOn generalizing e with
  | ind n ih =>
    subst hn
    have hwrap : ∀ {s : Expr Nat} {others : List Nat}, s.Under e →
        ((ofExpr s).wrap e others).origin.synthetic = false := by
      intro s others hs
      rw [origin_wrap]
      exact ih _ hs.size s rfl
    have hchild : ∀ a ∈ e.children, a.Under e :=
      fun a ha => Expr.under_of_child ha a.mem_preorder_self
    have hmade := made_ofExpr e
    generalize ofExpr e = c at hmade
    cases hmade with
    | castKept tag ty a => exact hwrap (hchild a (by simp [Expr.children]))
    | masked tag a b => exact hwrap (hchild a (by simp [Expr.children]))
    | maskedBy tag a b => exact hwrap (hchild b (by simp [Expr.children]))
    | sum _ _ hadd hc =>
      cases hc with
      | const => rfl
      | term c others hterms =>
        obtain ⟨-, s, hs, rfl⟩ := Chain.only_left hterms
        exact hwrap hs
      | sum _ _ _ _ _ _ _ hreal => exact hreal
    | var | const | castConst | trunc | notConst | not | folded | dyadic | swapped | extremum
    | select => rfl

/-- A term that is left of a sum is the form of an exposed expression. -/
theorem exposed_of_mem_left {e : Expr Nat} (hadd : e.isAdditive = true) {t : Bool × Canon}
    (ht : t ∈ (Chain.ofSum e).left) : ∃ s ∈ e.exposed, s.Under e ∧ t.2 = ofExpr s := by
  obtain ⟨-, s, hs, heq⟩ := Chain.term_left ht
  refine ⟨s, ?_, hs, heq⟩
  rw [Expr.exposed_of_isAdditive hadd]
  exact List.mem_map.mpr ⟨t, ht, by rw [heq, source_ofExpr]⟩

/-- The nodes right below a canonical form are canonical forms of visible expressions. -/
theorem visible_child {e : Expr Nat} {d : Canon} (hd : d ∈ (ofExpr e).children) :
    ∃ s, e.Visible s ∧ s.Under e ∧ d = ofExpr s := by
  induction hn : e.size using Nat.strongRecOn generalizing e with
  | ind n ih =>
    subst hn
    -- what collapsed into a form below has the children of that form
    have hbelow : ∀ a ∈ e.exposed, a.Under e → d ∈ (ofExpr a).children →
        ∃ s, e.Visible s ∧ s.Under e ∧ d = ofExpr s := by
      intro a ha hunder hd
      obtain ⟨s, hs, hlow, heq⟩ := ih _ hunder.size hd rfl
      exact ⟨s, .of_exposed ha hs, hlow.trans hunder, heq⟩
    have hexposed : ∀ a ∈ e.exposed, a.Under e → d = ofExpr a →
        ∃ s, e.Visible s ∧ s.Under e ∧ d = ofExpr s :=
      fun a ha hunder heq => ⟨a, .of_exposed ha .root, hunder, heq⟩
    have hchild : ∀ a ∈ e.children, a.Under e :=
      fun a ha => Expr.under_of_child ha a.mem_preorder_self
    have hmade := made_ofExpr e
    generalize ofExpr e = c at hmade hd
    cases hmade with
    | var | const | castConst | notConst | folded => cases hd
    | castKept tag ty a =>
      rw [children_wrap] at hd
      exact hbelow a List.mem_cons_self (hchild a (by simp [Expr.children])) hd
    | trunc tag ty a =>
      exact hexposed a List.mem_cons_self (hchild a (by simp [Expr.children]))
        (List.mem_singleton.mp hd)
    | not tag a =>
      exact hexposed a List.mem_cons_self (hchild a (by simp [Expr.children]))
        (List.mem_singleton.mp hd)
    | sum e c hadd hremains =>
      cases hremains with
      | const => cases hd
      | term c others hterms =>
        have hmem : (false, c) ∈ (Chain.ofSum e).left := hterms ▸ List.mem_cons_self
        obtain ⟨s, hs, hunder, heq⟩ := exposed_of_mem_left hadd hmem
        rw [children_wrap] at hd
        exact hbelow s hs hunder (heq ▸ hd)
      | sum =>
        obtain ⟨t, ht, rfl⟩ := List.mem_map.mp hd
        obtain ⟨s, hs, hunder, heq⟩ := exposed_of_mem_left hadd ht
        exact hexposed s hs hunder heq
    | masked tag a b =>
      rw [children_wrap] at hd
      exact hbelow a List.mem_cons_self (hchild a (by simp [Expr.children])) hd
    | maskedBy tag a b =>
      rw [children_wrap] at hd
      exact hbelow b (List.mem_cons_of_mem _ List.mem_cons_self)
        (hchild b (by simp [Expr.children])) hd
    | dyadic tag op op' a b hop =>
      rw [Expr.exposed_binary hop] at hexposed
      rcases List.mem_pair.mp hd with heq | heq
      · exact hexposed a (by simp) (hchild a (by simp [Expr.children])) heq
      · exact hexposed b (by simp) (hchild b (by simp [Expr.children])) heq
    | swapped tag op op' a b hop =>
      rw [Expr.exposed_binary hop] at hexposed
      rcases List.mem_pair.mp hd with heq | heq
      · exact hexposed b (by simp) (hchild b (by simp [Expr.children])) heq
      · exact hexposed a (by simp) (hchild a (by simp [Expr.children])) heq
    | extremum tag c a b op absorbed x y hxy hop =>
      rw [Expr.exposed_extremum hop] at hexposed
      have hx : x ∈ [a, b] ∧ y ∈ [a, b] := by
        rcases hxy with ⟨rfl, rfl⟩ | ⟨rfl, rfl⟩ <;> simp
      rcases List.mem_pair.mp hd with heq | heq
      · exact hexposed x hx.1 (hchild x (List.mem_cons_of_mem _ hx.1)) heq
      · exact hexposed y hx.2 (hchild y (List.mem_cons_of_mem _ hx.2)) heq
    | select tag c a b hnone =>
      rw [Expr.exposed_select hnone] at hexposed
      obtain ⟨x, hx, heq⟩ := List.mem_map.mp (show d ∈ [c, a, b].map ofExpr from hd)
      exact hexposed x hx (hchild x hx) heq.symm

/-- **The nodes right below a canonical form are canonical forms of expressions below.** -/
theorem child_ofExpr {e : Expr Nat} {d : Canon} (hd : d ∈ (ofExpr e).children) :
    ∃ s, s.Under e ∧ d = ofExpr s := by
  obtain ⟨s, -, hs, heq⟩ := visible_child hd
  exact ⟨s, hs, heq⟩

/-- Variables have plain names. -/
def plainNames : Expr.LeafRule where
  var name _ := Plain name.toList
  const _ _ := True
  cast _ := True

/-- Where variables have plain names, the key of every canonical form can be read back. -/
theorem clear_ofExpr {e : Expr Nat} (h : e.Obeys plainNames) : (ofExpr e).Clear := by
  induction hn : e.size using Nat.strongRecOn generalizing e with
  | ind n ih =>
    subst hn
    refine ⟨fun o name hvar => ?_, fun d hd => ?_⟩
    · have hunder : ∀ (s : Expr Nat) (others : List Nat), s.Under e →
          (ofExpr s).wrap e others = .var o name → Plain name.toList := by
        intro s others hs hwrap
        have hclear := ih _ hs.size (h.of_mem_preorder hs.mem) rfl
        generalize ofExpr s = c at hwrap hclear
        cases c with
        | var o' name' =>
          obtain ⟨-, rfl⟩ := Canon.var.inj hwrap
          exact hclear.name o' name' rfl
        | const | monadic | dyadic | select | sum => cases hwrap
      have hchild : ∀ a ∈ e.children, a.Under e :=
        fun a ha => Expr.under_of_child ha a.mem_preorder_self
      have hmade := made_ofExpr e
      generalize ofExpr e = c at hmade hvar
      cases hmade with
      | var =>
        obtain ⟨-, rfl⟩ := Canon.var.inj hvar
        exact h
      | castKept tag ty a others => exact hunder a others (hchild a (by simp [Expr.children])) hvar
      | masked tag a b others => exact hunder a others (hchild a (by simp [Expr.children])) hvar
      | maskedBy tag a b others => exact hunder b others (hchild b (by simp [Expr.children])) hvar
      | sum _ _ hadd hc =>
        cases hc with
        | const | sum => cases hvar
        | term c others hterms hk =>
          obtain ⟨-, s, hs, rfl⟩ := Chain.only_left hterms
          exact hunder s others hs hvar
      | const | castConst | trunc | notConst | not | folded | dyadic | swapped | extremum
      | select => cases hvar
    · obtain ⟨s, hs, rfl⟩ := child_ofExpr hd
      exact (ih _ hs.size (h.of_mem_preorder hs.mem) rfl).item_key

end Canon
end CustomIsa
